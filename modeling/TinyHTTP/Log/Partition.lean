import TinyHTTP.Log.Rotation

/-!
# TinyHTTP — the files of a log, one after another

Each file that `write_log` opens gets the lines from there on, until the count is a
multiple of `m_max_lines` again or the day of the month is another; the names go on with
the date and the count. A name comes back only where `init` has opened it for a file name
that looks like a number itself.

* `fresh_day`, `fresh_full` — the name that is opened is new.
* `lines_partitioned` — no file is opened twice, none has too many lines, and one after
  another they are the log.
-/

namespace TinyHTTP.Log

open TinyHTTP.Lib

/-- The lines of a file, in order. -/
def contentOf (entries : List Entry) (name : FileName) : List (List UInt8) :=
  (entries.filter fun e => e.file = name).map (·.line)

/-- The files are parts of the log, in the order in which they have been opened. -/
structure Partitioned (s : LogRun) : Prop where
  bounded : ∀ name, ((contentOf s.entries name).length : Int) ≤ s.log.maxLines
  nodup : s.opened.Nodup
  concat : s.opened.flatMap (contentOf s.entries) = s.entries.map (·.line)

/-- The name that `init` opens is not cut off. -/
def InitShort (fileName : List UInt8) (s : LogRun) : Prop :=
  (dirPart fileName ++ dateText s.start ++ basePart fileName).length ≤ 254

/-- The names that a call can open are not cut off. -/
def NamesShort (fileName : List UInt8) (s : LogRun) (c : WriteCall) : Prop :=
  (formatInt c.time.date.year).length ≤ 8 ∧
    (dirPart fileName ++ dateText c.time.date ++ keptBase fileName).length + 1 +
      (formatInt s.log.index).length ≤ 254

/-- On the day of `init` the count comes to the number that `file_name` consists of. -/
def Reopens (fileName : List UInt8) (s : LogRun) (c : WriteCall) : Prop :=
  s.log.today = c.time.date.day ∧ s.log.Full ∧ c.time.date = s.start ∧
    47 ∉ fileName ∧ fileName = 46 :: formatInt s.log.index

instance (fileName : List UInt8) (s : LogRun) (c : WriteCall) :
    Decidable (NamesShort fileName s c) :=
  inferInstanceAs (Decidable (_ ∧ _))

instance (fileName : List UInt8) (s : LogRun) (c : WriteCall) : Decidable (Reopens fileName s c) :=
  inferInstanceAs (Decidable (_ ∧ _))

-- ---------------------------------------------------------------------------
-- Lines
-- ---------------------------------------------------------------------------

theorem contentOf_append (entries : List Entry) (e : Entry) (name : FileName) :
    contentOf (entries ++ [e]) name =
      contentOf entries name ++ if e.file = name then [e.line] else [] := by
  rw [contentOf, contentOf, List.filter_append, List.map_append, List.filter_singleton]
  by_cases h : e.file = name <;> simp [h]

theorem contentOf_of_not_mem {entries : List Entry} {name : FileName}
    (h : ∀ e ∈ entries, e.file ≠ name) : contentOf entries name = [] := by
  rw [contentOf, List.filter_eq_nil_iff.mpr fun e he => by simpa using h e he]
  rfl

/-- A line for the last file goes to the end. -/
theorem concat_append {front : List FileName} {entries : List Entry} {e : Entry}
    (hfile : e.file ∉ front)
    (h : (front ++ [e.file]).flatMap (contentOf entries) = entries.map (·.line)) :
    (front ++ [e.file]).flatMap (contentOf (entries ++ [e])) = (entries ++ [e]).map (·.line) := by
  have hfront : front.flatMap (contentOf (entries ++ [e])) = front.flatMap (contentOf entries) := by
    refine List.flatMap_congr fun name hname => ?_
    have hne : e.file ≠ name := fun heq => hfile (heq ▸ hname)
    rw [contentOf_append, if_neg hne, List.append_nil]
  rw [List.flatMap_append, hfront, List.flatMap_singleton, contentOf_append, if_pos rfl,
    List.map_append, ← h, List.flatMap_append, List.flatMap_singleton, List.append_assoc]
  rfl

-- ---------------------------------------------------------------------------
-- The count
-- ---------------------------------------------------------------------------

theorem full_iff {l : FileLog} {max : Nat} (h : l.maxLines = max) :
    l.Full ↔ (l.count + 1) % max = 0 := by
  rw [FileLog.Full, h, ← Int.ofNat_tmod]
  exact Int.natCast_eq_zero

theorem index_mul {l : FileLog} {max : Nat} (h : l.maxLines = max) (hfull : l.Full) :
    l.index * max = (l.count + 1 : Nat) := by
  rw [FileLog.index, h, ← Int.ofNat_tdiv, ← Int.natCast_mul,
    Nat.div_mul_cancel (Nat.dvd_of_mod_eq_zero ((full_iff h).mp hfull))]

/-- Until the file is full the count goes on. -/
theorem succ_mod {n max : Nat} (hmax : 1 ≤ max) (h : (n + 1) % max ≠ 0) :
    (n + 1) % max = n % max + 1 := by
  have hlt : n % max < max := Nat.mod_lt _ hmax
  rw [← Nat.mod_add_mod] at h ⊢
  have hne : n % max + 1 ≠ max := by
    intro heq
    rw [heq, Nat.mod_self] at h
    exact h rfl
  exact Nat.mod_eq_of_lt (by omega)

-- ---------------------------------------------------------------------------
-- Names
-- ---------------------------------------------------------------------------

/-- A name that has been opened has a day that has come, and a number that has come if the day is
the last one; or it is the name of `init` without a slash. -/
def NameOf (fileName : List UInt8) (max : Nat) (s : LogRun) (name : FileName) : Prop :=
  ∃ d suffix, name = dirPart fileName ++ dateText d ++ suffix ∧ d.Le s.last.date ∧
    (d = s.last.date → ∀ k : Int, suffix = keptBase fileName ++ 46 :: formatInt k →
      k * max ≤ s.log.count ∨ d = s.start ∧ 47 ∉ fileName ∧ suffix = fileName)

theorem name_inj {dir xs ys : List UInt8} {d e : Date}
    (h : dir ++ dateText d ++ xs = dir ++ dateText e ++ ys) : d = e ∧ xs = ys := by
  rw [List.append_assoc, List.append_assoc, List.append_cancel_left_eq, dateText, dateText,
    List.append_assoc, List.append_assoc] at h
  obtain ⟨hdate, h⟩ := dayText_append_inj h
  exact ⟨hdate, (List.cons.inj h).2⟩

/-- A day that comes has no name yet. -/
theorem fresh_day {fileName : List UInt8} {max : Nat} {s : LogRun}
    (hnames : ∀ name ∈ s.opened, NameOf fileName max s name) {d : Date}
    (hle : s.last.date.Le d) (hne : s.last.date ≠ d) (suffix : List UInt8) :
    dirPart fileName ++ dateText d ++ suffix ∉ s.opened := by
  intro hmem
  obtain ⟨d', suffix', heq, hle', -⟩ := hnames _ hmem
  obtain ⟨rfl, -⟩ := name_inj heq
  exact hne (hle.antisymm hle')

/-- A number that comes has no name yet. -/
theorem fresh_full {fileName : List UInt8} {max : Nat} {s : LogRun}
    (hnames : ∀ name ∈ s.opened, NameOf fileName max s name) {d : Date}
    (hle : s.last.date.Le d) {k : Int} (hcount : k * max = (s.log.count + 1 : Nat))
    (hother : ¬ (d = s.start ∧ 47 ∉ fileName ∧ fileName = 46 :: formatInt k)) :
    dirPart fileName ++ dateText d ++ (keptBase fileName ++ 46 :: formatInt k) ∉ s.opened := by
  intro hmem
  obtain ⟨d', suffix, heq, hle', hnumber⟩ := hnames _ hmem
  obtain ⟨rfl, rfl⟩ := name_inj heq
  rcases hnumber (hle'.antisymm hle) k rfl with hk | ⟨hstart, hslash, hsuffix⟩
  · omega
  · rw [keptBase, if_neg hslash] at hsuffix
    exact hother ⟨hstart, hslash, hsuffix.symm⟩

/-- The names stay what they are when the day and the count go on. -/
theorem NameOf.mono {fileName : List UInt8} {max : Nat} {s s' : LogRun} {name : FileName}
    (h : NameOf fileName max s name) (hstart : s'.start = s.start)
    (hle : s.last.date.Le s'.last.date)
    (hcount : s.last.date = s'.last.date → s.log.count ≤ s'.log.count) :
    NameOf fileName max s' name := by
  obtain ⟨d, suffix, heq, hd, hnumber⟩ := h
  refine ⟨d, suffix, heq, hd.trans hle, fun hlast k hk => ?_⟩
  subst hlast
  have hsame := hd.antisymm hle
  rcases hnumber hsame k hk with hk | ⟨h₁, h₂, h₃⟩
  · have hcount := hcount hsame.symm
    exact Or.inl (by omega)
  · exact Or.inr ⟨h₁.trans hstart.symm, h₂, h₃⟩

-- ---------------------------------------------------------------------------
-- Runs
-- ---------------------------------------------------------------------------

/-- What holds of the files after each call. -/
structure Rotated (fileName : List UInt8) (max : Nat) (s : LogRun) : Prop where
  named : Named fileName max s
  today : s.log.today = s.last.date.day
  first : dirPart fileName ++ dateText s.start ++ basePart fileName ∈ s.opened
  names : ∀ name ∈ s.opened, NameOf fileName max s name
  files : ∀ e ∈ s.entries, e.file ∈ s.opened
  current : ∀ name, s.log.fp = some name → ∃ front, s.opened = front ++ [name]
  filling : ∀ name, s.log.fp = some name →
    (contentOf s.entries name).length ≤ s.log.count % max + 1
  parts : Partitioned s

theorem started_rotated {fileName : List UInt8} (hname : ∀ b ∈ fileName, b ≠ 0) {max : Nat}
    {s : LogRun} (h : Started fileName max s) (hshort : InitShort fileName s) :
    Rotated fileName max s := by
  obtain ⟨hinit⟩ := h
  rename_i d opens log name
  have hcase := init_cases hname hinit
  have hfull : name = dirPart fileName ++ dateText d ++ basePart fileName := by
    rw [hcase.name_eq]
    exact List.take_of_length_le hshort
  refine ⟨⟨hcase.storable, hcase.dir, hcase.base, hcase.maxLines⟩, hcase.today, ?_, ?_, ?_, ?_,
    ?_, ?_, ?_, ?_⟩
  · rw [← hfull]
    exact List.mem_singleton_self _
  · intro name' hmem
    obtain rfl := List.mem_singleton.mp hmem
    refine ⟨d, basePart fileName, hfull, .refl d, fun _ k hk => Or.inr ⟨rfl, ?_⟩⟩
    -- with a slash the base would be longer than itself
    have hslash : 47 ∉ fileName := by
      intro hslash
      rw [keptBase, if_pos hslash] at hk
      have hlen := congrArg List.length hk
      rw [List.length_append, List.length_cons] at hlen
      omega
    exact ⟨hslash, (parts_of_not_mem hslash).2⟩
  · intro e he
    cases he
  · intro name' hfp
    rw [hcase.fp, Option.ite_none_right_eq_some] at hfp
    exact ⟨[], by rw [Option.some.inj hfp.2]; rfl⟩
  · intro name' hfp
    exact Nat.zero_le _
  · intro name'
    rw [hcase.maxLines]
    exact Int.natCast_nonneg max
  · exact List.nodup_singleton _
  · rfl

/-- A line into the file that is open after the call. -/
theorem rotated_line {fileName : List UInt8} {max : Nat} {s : LogRun} (hs : Rotated fileName max s)
    (hmax : 1 ≤ max) {c : WriteCall} {l : FileLog} {buf : Mem} {front : List FileName}
    {file : FileName} {line : List UInt8} {openDate : Date}
    (hl : l.dirName = s.log.dirName ∧ l.logName = s.log.logName ∧ l.maxLines = s.log.maxLines)
    (hfp : l.fp = some file) (htoday : l.today = c.time.date.day)
    (hle : s.last.date.Le c.time.date)
    (hcount : s.last.date = c.time.date → s.log.count ≤ l.count)
    (hopened : ∀ name ∈ s.opened, name ∈ front ++ [file])
    (hnodup : (front ++ [file]).Nodup)
    (hnames : ∀ name ∈ front ++ [file], name ∈ s.opened ∨
      NameOf fileName max { s with log := l, last := c.time } name)
    (hconcat : (front ++ [file]).flatMap (contentOf s.entries) = s.entries.map (·.line))
    (hfilling : (contentOf s.entries file).length ≤ l.count % max) :
    Rotated fileName max { s with
      log := { l with buf := buf }
      opened := front ++ [file]
      entries := s.entries ++ [⟨file, c.time, line⟩]
      last := c.time
      openDate := openDate } := by
  have hlines : ∀ name, (contentOf (s.entries ++ [⟨file, c.time, line⟩]) name).length =
      (contentOf s.entries name).length + if file = name then 1 else 0 := by
    intro name
    rw [contentOf_append, List.length_append]
    by_cases h : file = name <;> simp [h]
  have hlt : l.count % max < max := Nat.mod_lt _ hmax
  have hmaxLines : s.log.maxLines = max := hs.named.maxLines
  refine ⟨⟨hs.named.storable, ?_, ?_, hl.2.2.trans hmaxLines⟩, htoday, hopened _ hs.first, ?_, ?_,
    ?_, ?_, ?_, hnodup, ?_⟩
  · rw [← hs.named.dir, FileLog.dir, FileLog.dir, hl.1]
  · rw [← hs.named.base, FileLog.base, FileLog.base, hl.2.1]
  · intro name hmem
    rcases hnames name hmem with hold | hnew
    · exact (hs.names name hold).mono rfl hle hcount
    · exact hnew
  · intro e he
    rcases List.mem_append.mp he with he | he
    · exact hopened _ (hs.files e he)
    · obtain rfl := List.mem_singleton.mp he
      exact List.mem_append_right _ (List.mem_singleton_self _)
  · intro name hname
    obtain rfl : file = name := Option.some.inj (hfp.symm.trans hname)
    exact ⟨front, rfl⟩
  · intro name hname
    obtain rfl : file = name := Option.some.inj (hfp.symm.trans hname)
    rw [hlines, if_pos rfl]
    exact Nat.succ_le_succ hfilling
  · intro name
    change _ ≤ l.maxLines
    have hold := hs.parts.bounded name
    rw [hlines, hl.2.2]
    split
    · rename_i heq
      subst heq
      omega
    · exact hold
  · have hfront : file ∉ front := fun hmem =>
      (List.nodup_append.mp hnodup).2.2 file hmem file (List.mem_singleton_self _) rfl
    exact concat_append hfront hconcat

/-- What a new name is for the files. -/
theorem Rotated.fresh {fileName : List UInt8} {max : Nat} {s : LogRun}
    (hs : Rotated fileName max s) {file : FileName} (hfile : file ∉ s.opened) :
    (s.opened ++ [file]).Nodup ∧ contentOf s.entries file = [] ∧
      (s.opened ++ [file]).flatMap (contentOf s.entries) = s.entries.map (·.line) := by
  have hempty : contentOf s.entries file = [] := by
    refine contentOf_of_not_mem fun e he heq => hfile ?_
    rw [← heq]
    exact hs.files e he
  refine ⟨?_, hempty, ?_⟩
  · refine List.nodup_append.mpr ⟨hs.parts.nodup, List.nodup_singleton _, fun a ha b hb heq => ?_⟩
    obtain rfl := List.mem_singleton.mp hb
    exact hfile (heq ▸ ha)
  · rw [List.flatMap_append, List.flatMap_singleton, hempty, List.append_nil]
    exact hs.parts.concat

theorem rotated_step {fileName : List UInt8} {max : Nat} (hmax : 1 ≤ max) {s s' : LogRun}
    {c : WriteCall} (hs : Rotated fileName max s) (hle : s.last.date.Le c.time.date)
    (hshort : NamesShort fileName s c) (hother : ¬ Reopens fileName s c)
    (h : s.step c = some s') : Rotated fileName max s' := by
  obtain ⟨l, opened, buf, file, line, hcase, hfp, rfl⟩ := step_cases h
  obtain ⟨hyear, hlen⟩ := hshort
  cases hcase with
  | day hday hname =>
    obtain rfl : _ = file := Option.some.inj (Option.ite_none_right_eq_some.mp hfp).2
    rename_i name
    rw [hs.named.dayName, tailText_eq hyear, List.take_of_length_le (by omega),
      Option.some.injEq] at hname
    have hne : s.last.date ≠ c.time.date := by
      intro heq
      rw [hs.today, heq] at hday
      exact hday rfl
    have hnew : name ∉ s.opened := hname ▸ fresh_day hs.names hle hne _
    obtain ⟨hnodup, hempty, hconcat⟩ := hs.fresh hnew
    refine rotated_line hs hmax ⟨rfl, rfl, rfl⟩ hfp rfl hle (fun heq => absurd heq hne)
      (fun _ => List.mem_append_left _) hnodup (fun name' hmem => ?_) hconcat ?_
    · refine (List.mem_append.mp hmem).imp_right fun hmem => ?_
      obtain rfl := List.mem_singleton.mp hmem
      refine ⟨_, _, hname.symm, .refl _, fun _ k hk => ?_⟩
      have hself := congrArg List.length hk
      rw [List.length_append, List.length_cons] at hself
      omega
    · rw [hempty]
      exact Nat.zero_le _
  | full hday hfull hname =>
    obtain rfl : _ = file := Option.some.inj (Option.ite_none_right_eq_some.mp hfp).2
    rename_i name
    have hcount := index_mul hs.named.maxLines hfull
    rw [hs.named.countName, tailText_eq hyear, List.take_of_length_le ?_, Option.some.injEq,
      List.append_assoc _ (keptBase fileName)] at hname
    · have hnew : name ∉ s.opened := hname ▸ fresh_full hs.names hle hcount fun hreopens =>
        hother ⟨hday, hfull, hreopens⟩
      obtain ⟨hnodup, hempty, hconcat⟩ := hs.fresh hnew
      refine rotated_line hs hmax ⟨rfl, rfl, rfl⟩ hfp hday hle (fun _ => Nat.le_succ _)
        (fun _ => List.mem_append_left _) hnodup (fun name' hmem => ?_) hconcat ?_
      · refine (List.mem_append.mp hmem).imp_right fun hmem => ?_
        obtain rfl := List.mem_singleton.mp hmem
        refine ⟨_, _, hname.symm, .refl _, fun _ k hk => Or.inl ?_⟩
        have hk := formatInt_inj (List.cons.inj (List.append_cancel_left hk)).2
        rw [← hk, hcount]
      · rw [hempty]
        exact Nat.zero_le _
    · rw [List.length_append, List.length_cons]
      omega
  | stay hday hfull =>
    obtain ⟨front, hfront⟩ := hs.current file hfp
    rw [Option.toList_none, List.append_nil, hfront]
    have hnodup := hs.parts.nodup
    have hconcat := hs.parts.concat
    rw [hfront] at hnodup hconcat
    refine rotated_line hs hmax ⟨rfl, rfl, rfl⟩ hfp hday hle (fun _ => Nat.le_succ _)
      (fun name hmem => hfront ▸ hmem) hnodup (fun name hmem => Or.inl (hfront ▸ hmem)) hconcat ?_
    rw [succ_mod hmax fun h => hfull ((full_iff hs.named.maxLines).mpr h)]
    exact hs.filling file hfp

/-- The number that `file_name` consists of brings its name back. -/
theorem not_nodup_of_reopens {fileName : List UInt8} {max : Nat} {s s' : LogRun} {c : WriteCall}
    (hs : Rotated fileName max s) (hshort : NamesShort fileName s c)
    (hreopens : Reopens fileName s c) (h : s.step c = some s') : ¬ s'.opened.Nodup := by
  obtain ⟨hyear, hlen⟩ := hshort
  obtain ⟨hday, hfull, hdate, hslash, hfile⟩ := hreopens
  obtain ⟨l, opened, buf, file, line, hcase, hfp, rfl⟩ := step_cases h
  have hfirst := hs.first
  obtain ⟨hdir, hbase⟩ := parts_of_not_mem hslash
  have hkept : keptBase fileName = [] := if_neg hslash
  cases hcase with
  | day hday' => exact absurd hday hday'
  | stay _ hfull' => exact absurd hfull hfull'
  | full _ _ hname =>
    rw [hs.named.countName, tailText_eq hyear, List.take_of_length_le ?_, Option.some.injEq,
      hkept, List.append_nil, ← hfile, hdate] at hname
    · rw [hbase, hname] at hfirst
      exact fun hnodup =>
        (List.nodup_append.mp hnodup).2.2 _ hfirst _ (List.mem_singleton_self _) rfl
    · rw [List.length_append, List.length_cons]
      omega

/-- **The files are the log in parts**, in a run that does not come to the name of `init` again by
a number; and the first call that does ends this. -/
theorem lines_partitioned {fileName : List UInt8} (hname : ∀ b ∈ fileName, b ≠ 0) {maxLines : Int}
    (hmax : 1 ≤ maxLines) {s : LogRun}
    (h : Reachable (fun s => Started fileName maxLines s ∧ InitShort fileName s) LogRun.step
      (fun s c => s.last.Le c.time ∧ NamesShort fileName s c ∧ ¬ Reopens fileName s c) s) :
    Partitioned s ∧
      ∀ c s', s.step c = some s' → s.last.Le c.time → NamesShort fileName s c →
        (Partitioned s' ↔ ¬ Reopens fileName s c) := by
  obtain ⟨max, rfl⟩ := Int.eq_ofNat_of_zero_le (Int.le_trans (by decide) hmax)
  have hpos : 1 ≤ max := Int.ofNat_le.mp hmax
  have hs : Rotated fileName max s :=
    h.invariant (fun s hs => started_rotated hname hs.1 hs.2)
      fun s c s' hs hok hstep => rotated_step hpos hs hok.1.1 hok.2.1 hok.2.2 hstep
  refine ⟨hs.parts, fun c s' hstep hle hshort => ⟨fun hparts hreopens => ?_, fun hother => ?_⟩⟩
  · exact not_nodup_of_reopens hs hshort hreopens hstep hparts.nodup
  · exact (rotated_step hpos hs hle.1 hshort hother hstep).parts

/-- Three lines, two to a file: the first file has one of them. -/
theorem lines_partitioned_january :
    ∃ s, s.opened = [bytes "2024_01_15_ServerLog", bytes "2024_01_15_.1"] ∧ Partitioned s := by
  have hrun : (runFrom (fun s c => decide (s.last.Le c.time ∧ NamesShort (bytes "ServerLog") s c ∧
        ¬ Reopens (bytes "ServerLog") s c)) (bytes "ServerLog") 2000 2 january
      [lineOn january, lineOn january, lineOn january]).map LogRun.opened =
      some [bytes "2024_01_15_ServerLog", bytes "2024_01_15_.1"] := by decide +kernel
  obtain ⟨s, hs, hopened⟩ := Option.map_eq_some_iff.mp hrun
  refine ⟨s, hopened, (lines_partitioned (by decide +kernel) (by decide)
    (reachable_runFrom (fun s hs hstart => ⟨hs, ?_⟩) (fun _ _ => of_decide_eq_true) hs)).1⟩
  rw [InitShort, hstart]
  decide +kernel

/-- `init(".1", …)`: the second line of the day opens the file of the first again, and the third
follows it there. -/
theorem three_lines_of_two :
    ¬ ∀ s, Reachable (fun s => Started (bytes ".1") 2 s ∧ InitShort (bytes ".1") s) LogRun.step
      (fun s c => s.last.Le c.time ∧ NamesShort (bytes ".1") s c ∧ c.opens = true) s →
        Partitioned s := by
  intro h
  have hrun : (runFrom (fun s c => decide (s.last.Le c.time ∧ NamesShort (bytes ".1") s c ∧
        c.opens = true)) (bytes ".1") 2000 2 january
      [lineOn january, lineOn january, lineOn january]).map LogRun.opened =
      some [bytes "2024_01_15_.1", bytes "2024_01_15_.1"] := by decide +kernel
  obtain ⟨s, hs, hopened⟩ := Option.map_eq_some_iff.mp hrun
  have hparts := h s (reachable_runFrom (fun s hs hstart => ⟨hs, ?_⟩)
    (fun _ _ => of_decide_eq_true) hs)
  · have hnodup := hparts.nodup
    rw [hopened] at hnodup
    exact (List.nodup_cons.mp hnodup).1 (List.mem_singleton_self _)
  · rw [InitShort, hstart]
    decide +kernel

end TinyHTTP.Log
