import TinyHTTP.Lib.CString
import TinyHTTP.Lib.Decimal
import TinyHTTP.Lib.Run

/-!
# TinyHTTP — the log and its files

`Log::init` and `Log::write_log` as one thread sees them that logs without a queue:
the names of the files, the buffer that a line is formatted in, and the change of files
by day and by number of lines. What `localtime` and `gettimeofday` return is part of a
call, and so is whether `fopen` gives a stream.

* `FileLog.init`, `FileLog.writeLog` — the two functions; `none` where C++ leaves the behaviour
  undefined.
* `LogRun` — a run, with the files that it has opened and the lines that they have got.
* `init_cases`, `rotate_cases`, `step_cases` — what the functions and a step of a run do.
-/

namespace TinyHTTP.Log

open TinyHTTP.Lib

-- ---------------------------------------------------------------------------
-- Time
-- ---------------------------------------------------------------------------

/-- The day in a `struct tm`, as it is printed. -/
structure Date where
  /-- `tm_year + 1900` -/
  year : Int
  /-- `tm_mon + 1` -/
  month : Nat
  /-- `tm_mday` -/
  day : Nat
  le_year : -2 ^ 31 ≤ year
  year_lt : year < 2 ^ 31
  le_month : 1 ≤ month
  month_le : month ≤ 12
  le_day : 1 ≤ day
  day_le : day ≤ 31
  deriving DecidableEq

/-- A day is not before another. -/
def Date.Le (d e : Date) : Prop :=
  d.year < e.year ∨ d.year = e.year ∧ (d.month < e.month ∨ d.month = e.month ∧ d.day ≤ e.day)

instance (d e : Date) : Decidable (d.Le e) :=
  inferInstanceAs (Decidable (_ ∨ _))

/-- `my_tm` and `now.tv_usec` -/
structure Timestamp where
  date : Date
  hour : Nat
  minute : Nat
  second : Nat
  usec : Nat
  hour_lt : hour < 24
  minute_lt : minute < 60
  second_le : second ≤ 60
  usec_lt : usec < 10 ^ 6
  deriving DecidableEq

/-- The time of day as one number; a minute can have a second more. -/
def Timestamp.clock (t : Timestamp) : Nat :=
  ((t.hour * 60 + t.minute) * 61 + t.second) * 10 ^ 6 + t.usec

/-- A time is not before another. -/
def Timestamp.Le (t u : Timestamp) : Prop :=
  t.date.Le u.date ∧ (t.date = u.date → t.clock ≤ u.clock)

instance (t u : Timestamp) : Decidable (t.Le u) :=
  inferInstanceAs (Decidable (_ ∧ _))

/-- The beginning of a day. -/
def Date.midnight (d : Date) : Timestamp where
  date := d
  hour := 0
  minute := 0
  second := 0
  usec := 0
  hour_lt := by decide
  minute_lt := by decide
  second_le := by decide
  usec_lt := by decide

/-- A day in January. -/
def january : Date :=
  ⟨2024, 1, 15, by decide, by decide, by decide, by decide, by decide, by decide⟩

/-- The same day of the next month. -/
def february : Date :=
  ⟨2024, 2, 15, by decide, by decide, by decide, by decide, by decide, by decide⟩

theorem Date.Le.refl (d : Date) : d.Le d := Or.inr ⟨rfl, Or.inr ⟨rfl, Nat.le_refl _⟩⟩

theorem Date.Le.trans {d e f : Date} (h : d.Le e) (h' : e.Le f) : d.Le f := by
  unfold Date.Le at h h' ⊢
  omega

theorem Date.Le.antisymm {d e : Date} (h : d.Le e) (h' : e.Le d) : d = e := by
  obtain ⟨year, month, day⟩ := d
  obtain ⟨year', month', day'⟩ := e
  simp only [Date.Le] at h h'
  obtain rfl : year = year' := by omega
  obtain rfl : month = month' := by omega
  obtain rfl : day = day' := by omega
  rfl

-- ---------------------------------------------------------------------------
-- Texts
-- ---------------------------------------------------------------------------

abbrev FileName := List UInt8

/-- `"%d_%02d_%02d"`, the year, month and day of a name -/
def dayText (d : Date) : List UInt8 :=
  formatInt d.year ++ 95 :: padded 2 d.month ++ 95 :: padded 2 d.day

/-- `"%d_%02d_%02d_"` -/
def dateText (d : Date) : List UInt8 := dayText d ++ [95]

/-- `tail`, 16 bytes of it -/
def tailText (d : Date) : List UInt8 := (dateText d).take 15

/-- `s` -/
def levelText (level : Int) : List UInt8 :=
  if level = 0 then bytes "[debug]:"
  else if level = 1 then bytes "[info]:"
  else if level = 2 then bytes "[warn]:"
  else if level = 3 then bytes "[erro]:"
  else bytes "[info]:"

/-- `"%d-%02d-%02d %02d:%02d:%02d.%06ld %s "` -/
def linePrefix (t : Timestamp) (level : Int) : List UInt8 :=
  formatInt t.date.year ++ 45 :: padded 2 t.date.month ++ 45 :: padded 2 t.date.day ++
    32 :: padded 2 t.hour ++ 58 :: padded 2 t.minute ++ 58 :: padded 2 t.second ++
    46 :: padded 6 t.usec ++ 32 :: levelText level ++ [32]

-- ---------------------------------------------------------------------------
-- The log
-- ---------------------------------------------------------------------------

/-- The log that `get_instance` returns. -/
structure FileLog where
  /-- `char dir_name[128]` -/
  dirName : Mem
  /-- `char log_name[128]` -/
  logName : Mem
  /-- `m_buf` -/
  buf : Mem
  /-- `m_log_buf_size` -/
  logBufSize : Nat
  /-- `m_max_lines` -/
  maxLines : Int
  /-- `m_count` -/
  count : Nat
  /-- `m_today` -/
  today : Nat
  /-- the file of `m_fp`; `none` is `NULL` -/
  fp : Option FileName

/-- The instance of `get_instance`, as static storage and the constructor leave it. -/
def FileLog.instance : FileLog where
  dirName := fun _ => 0
  logName := fun _ => 0
  buf := fun _ => 0
  logBufSize := 0
  maxLines := 0
  count := 0
  today := 0
  fp := none

/-- `%s` of `dir_name` -/
def FileLog.dir (l : FileLog) : Option (List UInt8) := (cstring l.dirName 128 0).toOption

/-- `%s` of `log_name` -/
def FileLog.base (l : FileLog) : Option (List UInt8) := (cstring l.logName 128 0).toOption

/-- `strrchr(file_name, '/')`, as an index -/
def lastSlash (fileName : List UInt8) : Option Nat :=
  (fileName.reverse.idxOf? 47).map fun k => fileName.length - 1 - k

/-- `init`: what it stores of `file_name`, and `log_full_name`. -/
def FileLog.initNames (l : FileLog) (fileName : List UInt8) (d : Date) :
    Option (FileLog × FileName) :=
  match lastSlash fileName with
  | none => some (l, (dateText d ++ fileName).take 254)
  | some p =>
    -- `strcpy(log_name, p + 1)` and `strncpy(dir_name, file_name, p - file_name + 1)`
    if 128 ≤ (fileName.drop (p + 1)).length ∨ 128 < p + 1 then none
    else do
      let l := { l with
        logName := writeBytes l.logName 0 (fileName.drop (p + 1) ++ [0])
        dirName := strncpy l.dirName 0 fileName (p + 1) }
      let dir ← l.dir
      let base ← l.base
      return (l, (dir ++ dateText d ++ base).take 254)

/-- `init(file_name, log_buf_size, split_lines, 0)` on a day: the log, and the name that it
opens. -/
def FileLog.init (l : FileLog) (fileName : List UInt8) (logBufSize : Nat) (splitLines : Int)
    (d : Date) (opens : Bool) : Option (FileLog × FileName) := do
  let l := { l with logBufSize, buf := fun _ => 0, maxLines := splitLines }
  let (l, name) ← l.initNames fileName d
  return ({ l with today := d.day, fp := if opens then some name else none }, name)

/-- `new_log` on another day -/
def FileLog.dayName (l : FileLog) (d : Date) : Option FileName := do
  let dir ← l.dir
  let base ← l.base
  return (dir ++ tailText d ++ base).take 254

/-- `new_log` when the file is full, with `m_count / m_max_lines` -/
def FileLog.countName (l : FileLog) (d : Date) (index : Int) : Option FileName := do
  let dir ← l.dir
  let base ← l.base
  return (dir ++ tailText d ++ base ++ 46 :: formatInt index).take 254

/-- `m_count / m_max_lines`, for the line that comes -/
def FileLog.index (l : FileLog) : Int := Int.tdiv (l.count + 1 : Nat) l.maxLines

/-- `m_count % m_max_lines == 0`, for the line that comes -/
def FileLog.Full (l : FileLog) : Prop := Int.tmod (l.count + 1 : Nat) l.maxLines = 0

instance (l : FileLog) : Decidable l.Full := inferInstanceAs (Decidable (_ = _))

/-- `write_log`, the first critical section: the log, and the name of the file that it opens. -/
def FileLog.rotate (l : FileLog) (d : Date) (opens : Bool) : Option (FileLog × Option FileName) :=
  if 2 ^ 63 ≤ l.count + 1 then none
  else if l.today ≠ d.day then do
    -- `fclose(m_fp)`
    let _ ← l.fp
    let name ← l.dayName d
    return ({ l with today := d.day, count := 0, fp := if opens then some name else none },
      some name)
  else if l.maxLines = 0 then none
  else if l.Full then do
    let _ ← l.fp
    let name ← l.countName d l.index
    return ({ l with count := l.count + 1, fp := if opens then some name else none }, some name)
  else some ({ l with count := l.count + 1 }, none)

/-- `snprintf(m + i, n, …)` for a text, with `n` positive, in an array of `size` bytes. -/
def snprintf (m : Mem) (size i n : Nat) (text : List UInt8) : Option Mem :=
  if i + min text.length (n - 1) < size then some (writeBytes m i (text.take (n - 1) ++ [0]))
  else none

/-- What `vsnprintf` returns. -/
def returned (text : List UInt8) : Int := if text.length < 2 ^ 31 then text.length else -1

/-- `m[i] = b` -/
def store (m : Mem) (size : Nat) (i : Int) (b : UInt8) : Option Mem :=
  if 0 ≤ i ∧ i < size then some (Function.update m i.toNat b) else none

/-- `write_log`, the second critical section: the log, and `log_str`. -/
def FileLog.formatLine (l : FileLog) (t : Timestamp) (level : Int) (message : List UInt8) :
    Option (FileLog × List UInt8) := do
  let n := (linePrefix t level).length
  let buf ← snprintf l.buf l.logBufSize 0 48 (linePrefix t level)
  let buf ← snprintf buf l.logBufSize n (l.logBufSize - 1) message
  let m := returned message
  let buf ← store buf l.logBufSize (n + m) 10
  let buf ← store buf l.logBufSize (n + m + 1) 0
  let logStr ← (cstring buf l.logBufSize 0).toOption
  return ({ l with buf := buf }, logStr)

/-- A call of `write_log`. -/
structure WriteCall where
  time : Timestamp
  level : Int
  /-- the formatted message -/
  message : List UInt8
  /-- `fopen` gives a stream, if it is called. -/
  opens : Bool
  deriving DecidableEq

/-- A line that `fputs` has written. -/
structure Entry where
  file : FileName
  time : Timestamp
  line : List UInt8
  deriving DecidableEq

/-- `write_log`: the log, the name of the file that it opens, and what it writes. -/
def FileLog.writeLog (l : FileLog) (c : WriteCall) :
    Option (FileLog × Option FileName × Entry) := do
  let (l, opened) ← l.rotate c.time.date c.opens
  let (l, line) ← l.formatLine c.time c.level c.message
  let file ← l.fp
  return (l, opened, ⟨file, c.time, line⟩)

-- ---------------------------------------------------------------------------
-- Runs
-- ---------------------------------------------------------------------------

structure LogRun where
  log : FileLog
  /-- the names that have been opened, in order -/
  opened : List FileName
  /-- the lines that have been written, in order -/
  entries : List Entry
  /-- the day of `init` -/
  start : Date
  /-- the time of the last call; of `init` only the day counts -/
  last : Timestamp
  /-- the day on which the file was opened -/
  openDate : Date

/-- After `init` of the new log. -/
inductive Started (fileName : List UInt8) (maxLines : Int) : LogRun → Prop
  | mk {logBufSize : Nat} {d : Date} {opens : Bool} {log : FileLog} {name : FileName}
      (h : FileLog.instance.init fileName logBufSize maxLines d opens = some (log, name)) :
      Started fileName maxLines ⟨log, [name], [], d, d.midnight, d⟩

def LogRun.step (s : LogRun) (c : WriteCall) : Option LogRun := do
  let (log, opened, entry) ← s.log.writeLog c
  return { s with
    log := log
    opened := s.opened ++ opened.toList
    entries := s.entries ++ [entry]
    last := c.time
    openDate := if opened.isSome then c.time.date else s.openDate }

/-- `init`, and then calls, as long as they pass a check. -/
def runFrom (check : LogRun → WriteCall → Bool) (fileName : List UInt8) (logBufSize : Nat)
    (maxLines : Int) (d : Date) (calls : List WriteCall) : Option LogRun := do
  let (log, name) ← FileLog.instance.init fileName logBufSize maxLines d true
  runSteps (guarded check LogRun.step) ⟨log, [name], [], d, d.midnight, d⟩ calls

/-- A run that is checked as it goes, from any day. -/
theorem reachable_runFrom {init : LogRun → Prop} {check : LogRun → WriteCall → Bool}
    {ok : LogRun → WriteCall → Prop} {fileName : List UInt8} {logBufSize : Nat} {maxLines : Int}
    {d : Date} {calls : List WriteCall} {s : LogRun}
    (hinit : ∀ s, Started fileName maxLines s → s.start = d → init s)
    (hcheck : ∀ s c, check s c = true → ok s c)
    (h : runFrom check fileName logBufSize maxLines d calls = some s) :
    Reachable init LogRun.step ok s := by
  unfold runFrom at h
  rw [Option.bind_eq_bind, Option.bind_eq_some_iff] at h
  obtain ⟨⟨log, name⟩, hlog, h⟩ := h
  exact .of_guarded hcheck (.init (hinit _ ⟨hlog⟩ rfl)) h

-- ---------------------------------------------------------------------------
-- The parts of the name
-- ---------------------------------------------------------------------------

/-- `file_name` up to its last slash, with the slash. -/
def dirPart (fileName : List UInt8) : List UInt8 := (fileName.reverse.dropWhile (· ≠ 47)).reverse

/-- `file_name` from its last slash on, without the slash. -/
def basePart (fileName : List UInt8) : List UInt8 := (fileName.reverse.takeWhile (· ≠ 47)).reverse

/-- What `log_name` holds after `init`: nothing if there is no slash. -/
def keptBase (fileName : List UInt8) : List UInt8 := if 47 ∈ fileName then basePart fileName else []

/-- The file name is cut at its last slash. -/
theorem dirPart_append_basePart (fileName : List UInt8) :
    dirPart fileName ++ basePart fileName = fileName := by
  rw [dirPart, basePart, ← List.reverse_append, List.takeWhile_append_dropWhile,
    List.reverse_reverse]

theorem take_dirPart (fileName : List UInt8) :
    fileName.take (dirPart fileName).length = dirPart fileName :=
  calc fileName.take (dirPart fileName).length
      = (dirPart fileName ++ basePart fileName).take (dirPart fileName).length := by
        rw [dirPart_append_basePart]
    _ = dirPart fileName := List.take_left

theorem drop_dirPart (fileName : List UInt8) :
    fileName.drop (dirPart fileName).length = basePart fileName :=
  calc fileName.drop (dirPart fileName).length
      = (dirPart fileName ++ basePart fileName).drop (dirPart fileName).length := by
        rw [dirPart_append_basePart]
    _ = basePart fileName := List.drop_left

theorem parts_of_not_mem {fileName : List UInt8} (h : 47 ∉ fileName) :
    dirPart fileName = [] ∧ basePart fileName = fileName := by
  have hall : ∀ b ∈ fileName.reverse, decide (b ≠ 47) = true := by
    intro b hb
    refine decide_eq_true ?_
    rintro rfl
    exact h (List.mem_reverse.mp hb)
  rw [dirPart, basePart, List.dropWhile_eq_nil_iff.mpr hall, List.takeWhile_eq_self_iff.mpr hall]
  exact ⟨rfl, List.reverse_reverse _⟩

theorem idxOf?_of_mem {a : UInt8} {bs : List UInt8} (h : a ∈ bs) :
    bs.idxOf? a = some (bs.takeWhile (· ≠ a)).length := by
  induction bs with
  | nil => cases h
  | cons b bs ih =>
    rw [List.idxOf?_cons]
    by_cases hb : b = a
    · subst hb
      simp
    · have hmem : a ∈ bs := (List.mem_cons.mp h).resolve_left fun h => hb h.symm
      rw [if_neg (by simpa using hb), ih hmem, List.takeWhile_cons_of_pos (by simpa using hb)]
      rfl

theorem lastSlash_of_not_mem {fileName : List UInt8} (h : 47 ∉ fileName) :
    lastSlash fileName = none := by
  have hnone : fileName.reverse.idxOf? 47 = none := by simpa using h
  rw [lastSlash, hnone]
  rfl

/-- The slash that `strrchr` finds parts the name. -/
theorem lastSlash_of_mem {fileName : List UInt8} (h : 47 ∈ fileName) :
    ∃ p, lastSlash fileName = some p ∧ p + 1 = (dirPart fileName).length ∧
      fileName.take (p + 1) = dirPart fileName ∧ fileName.drop (p + 1) = basePart fileName := by
  have hmem : 47 ∈ fileName.reverse := List.mem_reverse.mpr h
  have hfound := idxOf?_of_mem hmem
  have hlen := congrArg List.length (dirPart_append_basePart fileName)
  have hbase : (basePart fileName).length = (fileName.reverse.takeWhile (· ≠ 47)).length := by
    rw [basePart, List.length_reverse]
  have hlt : (fileName.reverse.takeWhile (· ≠ 47)).length < fileName.reverse.length :=
    (List.idxOf?_eq_some_iff.mp hfound).1
  rw [List.length_append, hbase] at hlen
  rw [List.length_reverse] at hlt
  have hp : fileName.length - 1 - (fileName.reverse.takeWhile (· ≠ 47)).length + 1 =
      (dirPart fileName).length := by omega
  refine ⟨_, by rw [lastSlash, hfound, Option.map_some], hp, ?_, ?_⟩
  · rw [hp]
    exact take_dirPart fileName
  · rw [hp]
    exact drop_dirPart fileName

-- ---------------------------------------------------------------------------
-- `init`
-- ---------------------------------------------------------------------------

/-- The parts of the name fit into their arrays. -/
def Storable (fileName : List UInt8) : Prop :=
  47 ∈ fileName → (dirPart fileName).length < 128 ∧ (basePart fileName).length < 128

/-- The name that `init` gives to `fopen`. -/
def fullName (fileName : List UInt8) (d : Date) : FileName :=
  (dirPart fileName ++ dateText d ++ basePart fileName).take 254

/-- A string as long as its array is read past its end. -/
theorem cstring_full {m : Mem} {size : Nat} {h : List UInt8} (hs : HasString m 0 h)
    (hsize : size ≤ h.length) : (cstring m size 0).toOption = none := by
  cases hc : cstring m size 0 with
  | error e => rfl
  | ok h' =>
    obtain ⟨hs', hlt⟩ := hasString_cstring hc
    rw [Nat.zero_add] at hlt
    have hbyte : m (0 + h'.length) = h[h'.length] := hs.byte _ (by omega)
    rw [hs'.nul] at hbyte
    exact absurd hbyte.symm (hs.nonzero _ (List.getElem_mem _))

/-- What has been stored with its NUL is read back. -/
theorem cstring_toOption {m : Mem} {size : Nat} {h : List UInt8} (hs : HasString m 0 h)
    (hsize : h.length < size) : (cstring m size 0).toOption = some h := by
  rw [cstring_string hs (by omega)]
  rfl

/-- What `init` stores in arrays of zeros, and what it opens. -/
theorem initNames_zero {l : FileLog} (hdir : l.dirName = fun _ => 0)
    (hbase : l.logName = fun _ => 0) {fileName : List UInt8} (hname : ∀ b ∈ fileName, b ≠ 0)
    (hfit : Storable fileName) (d : Date) :
    ∃ dirName logName,
      l.initNames fileName d =
        some ({ l with dirName := dirName, logName := logName }, fullName fileName d) ∧
      (cstring dirName 128 0).toOption = some (dirPart fileName) ∧
      (cstring logName 128 0).toOption = some (keptBase fileName) := by
  have hempty : (cstring (fun _ => 0) 128 0).toOption = some [] :=
    cstring_toOption (.of_nul rfl) (by decide)
  unfold FileLog.initNames keptBase
  by_cases hmem : 47 ∈ fileName
  · obtain ⟨hdirlen, hbaselen⟩ := hfit hmem
    obtain ⟨p, hp, hlen, htake, hdrop⟩ := lastSlash_of_mem hmem
    have hkept : HasString (writeBytes l.logName 0 (basePart fileName ++ [0])) 0
        (basePart fileName) := by
      refine hasString_writeBytes_nul _ 0 fun b hb => hname b ?_
      rw [← hdrop] at hb
      exact List.mem_of_mem_drop hb
    have hstored : HasString (strncpy l.dirName 0 fileName (p + 1)) 0 (dirPart fileName) := by
      rw [← htake]
      refine hasString_strncpy hname (Or.inr ?_)
      rw [hdir]
    simp only [hp, hdrop]
    rw [if_neg (by omega), if_pos hmem]
    refine ⟨_, _, ?_, cstring_toOption hstored hdirlen, cstring_toOption hkept hbaselen⟩
    simp only [FileLog.dir, FileLog.base, cstring_toOption hstored hdirlen,
      cstring_toOption hkept hbaselen, Option.bind_eq_bind, Option.bind_some]
    rfl
  · rw [lastSlash_of_not_mem hmem, if_neg hmem, fullName, (parts_of_not_mem hmem).1,
      (parts_of_not_mem hmem).2]
    refine ⟨_, _, rfl, ?_, ?_⟩
    · rw [hdir]
      exact hempty
    · rw [hbase]
      exact hempty

/-- A part that is too long does not come back from `init`. -/
theorem initNames_long {l : FileLog} (hdir : l.dirName = fun _ => 0) {fileName : List UInt8}
    (hname : ∀ b ∈ fileName, b ≠ 0) (hlong : ¬ Storable fileName) (d : Date) :
    l.initNames fileName d = none := by
  unfold Storable at hlong
  rw [Classical.not_imp] at hlong
  obtain ⟨hmem, hlong⟩ := hlong
  obtain ⟨p, hp, hlen, htake, hdrop⟩ := lastSlash_of_mem hmem
  unfold FileLog.initNames
  simp only [hp, hdrop]
  split
  · rfl
  · -- the directory fills its array, without a NUL
    have hstored : HasString (strncpy l.dirName 0 fileName (p + 1)) 0 (dirPart fileName) := by
      rw [← htake]
      refine hasString_strncpy hname (Or.inr ?_)
      rw [hdir]
    have hfull : (cstring (strncpy l.dirName 0 fileName (p + 1)) 128 0).toOption = none :=
      cstring_full hstored (by omega)
    simp only [FileLog.dir, hfull, Option.bind_eq_bind, Option.bind_none]

/-- What `init` leaves behind. -/
structure InitCase (fileName : List UInt8) (logBufSize : Nat) (splitLines : Int) (d : Date)
    (opens : Bool) (l : FileLog) (name : FileName) : Prop where
  storable : Storable fileName
  name_eq : name = fullName fileName d
  dir : l.dir = some (dirPart fileName)
  base : l.base = some (keptBase fileName)
  logBufSize : l.logBufSize = logBufSize
  maxLines : l.maxLines = splitLines
  count : l.count = 0
  today : l.today = d.day
  fp : l.fp = if opens then some name else none

/-- `init` cuts the name into the two parts, and opens the file of the day. -/
theorem init_some {fileName : List UInt8} (hname : ∀ b ∈ fileName, b ≠ 0)
    (hfit : Storable fileName) (logBufSize : Nat) (splitLines : Int) (d : Date) (opens : Bool) :
    ∃ l, FileLog.instance.init fileName logBufSize splitLines d opens =
      some (l, fullName fileName d) ∧
      InitCase fileName logBufSize splitLines d opens l (fullName fileName d) := by
  obtain ⟨dirName, logName, hinit, hdir, hbase⟩ :=
    @initNames_zero { FileLog.instance with
      logBufSize := logBufSize, buf := fun _ => 0, maxLines := splitLines } rfl rfl fileName hname
      hfit d
  refine ⟨{ FileLog.instance with
    dirName := dirName
    logName := logName
    logBufSize := logBufSize
    maxLines := splitLines
    today := d.day
    fp := if opens then some (fullName fileName d) else none }, ?_,
    hfit, rfl, hdir, hbase, rfl, rfl, rfl, rfl, rfl⟩
  unfold FileLog.init
  simp only [hinit, Option.bind_eq_bind, Option.bind_some]
  rfl

/-- **Inversion.** -/
theorem init_cases {fileName : List UInt8} (hname : ∀ b ∈ fileName, b ≠ 0) {logBufSize : Nat}
    {splitLines : Int} {d : Date} {opens : Bool} {l : FileLog} {name : FileName}
    (h : FileLog.instance.init fileName logBufSize splitLines d opens = some (l, name)) :
    InitCase fileName logBufSize splitLines d opens l name := by
  by_cases hfit : Storable fileName
  · obtain ⟨l', hinit, hcase⟩ := init_some hname hfit logBufSize splitLines d opens
    cases hinit.symm.trans h
    exact hcase
  · unfold FileLog.init at h
    have hnone := fun l hdir => @initNames_long l hdir fileName hname hfit d
    simp only [FileLog.instance, hnone, Option.bind_eq_bind, Option.bind_none] at h
    cases h

-- ---------------------------------------------------------------------------
-- `write_log`
-- ---------------------------------------------------------------------------

/-- What the first critical section does. -/
inductive RotateCase (l : FileLog) (d : Date) (opens : Bool) : FileLog → Option FileName → Prop
  | day {name : FileName} (hday : l.today ≠ d.day) (hname : l.dayName d = some name) :
      RotateCase l d opens
        { l with today := d.day, count := 0, fp := if opens then some name else none } (some name)
  | full {name : FileName} (hday : l.today = d.day) (hfull : l.Full)
      (hname : l.countName d l.index = some name) :
      RotateCase l d opens
        { l with count := l.count + 1, fp := if opens then some name else none } (some name)
  | stay (hday : l.today = d.day) (hfull : ¬ l.Full) :
      RotateCase l d opens { l with count := l.count + 1 } none

/-- A new day is looked at before the number of lines, and each opens a file of its own. -/
theorem rotate_cases {l l' : FileLog} {d : Date} {opens : Bool} {opened : Option FileName}
    (h : l.rotate d opens = some (l', opened)) : RotateCase l d opens l' opened := by
  unfold FileLog.rotate at h
  split at h
  · cases h
  · split at h
    · rename_i hday
      simp only [Option.bind_eq_bind, Option.bind_eq_some_iff] at h
      obtain ⟨-, -, name, hname, h⟩ := h
      cases h
      exact .day hday hname
    · rename_i hday
      have hday : l.today = d.day := Decidable.not_not.mp hday
      split at h
      · cases h
      · split at h
        · rename_i hfull
          simp only [Option.bind_eq_bind, Option.bind_eq_some_iff] at h
          obtain ⟨-, -, name, hname, h⟩ := h
          cases h
          exact .full hday hfull hname
        · rename_i hfull
          cases h
          exact .stay hday hfull

/-- The second critical section touches the buffer. -/
theorem formatLine_frame {l l' : FileLog} {t : Timestamp} {level : Int}
    {message line : List UInt8} (h : l.formatLine t level message = some (l', line)) :
    ∃ buf, l' = { l with buf := buf } := by
  simp only [FileLog.formatLine, Option.bind_eq_bind, Option.bind_eq_some_iff] at h
  obtain ⟨_, _, _, _, _, _, buf, _, _, _, h⟩ := h
  cases h
  exact ⟨buf, rfl⟩

/-- What a step of a run does: the first section, and a line into the file that is open then. -/
theorem step_cases {s s' : LogRun} {c : WriteCall} (h : s.step c = some s') :
    ∃ l opened buf file line, RotateCase s.log c.time.date c.opens l opened ∧ l.fp = some file ∧
      s' = { s with
        log := { l with buf := buf }
        opened := s.opened ++ opened.toList
        entries := s.entries ++ [⟨file, c.time, line⟩]
        last := c.time
        openDate := if opened.isSome then c.time.date else s.openDate } := by
  simp only [LogRun.step, FileLog.writeLog, Option.bind_eq_bind, Option.bind_eq_some_iff] at h
  obtain ⟨_, ⟨⟨l, opened⟩, hrotate, ⟨l', line⟩, hline, file, hfile, hentry⟩, h⟩ := h
  obtain ⟨buf, rfl⟩ := formatLine_frame hline
  cases hentry
  cases h
  exact ⟨l, opened, buf, file, line, rotate_cases hrotate, hfile, rfl⟩

/-- The names that `init` has stored stay. -/
theorem RotateCase.frame {l l' : FileLog} {d : Date} {opens : Bool} {opened : Option FileName}
    (h : RotateCase l d opens l' opened) :
    l'.dirName = l.dirName ∧ l'.logName = l.logName ∧ l'.maxLines = l.maxLines ∧
      l'.logBufSize = l.logBufSize := by
  cases h <;> exact ⟨rfl, rfl, rfl, rfl⟩

/-- What a log knows of its file names after `init`. -/
structure Named (fileName : List UInt8) (maxLines : Int) (s : LogRun) : Prop where
  storable : Storable fileName
  dir : s.log.dir = some (dirPart fileName)
  base : s.log.base = some (keptBase fileName)
  maxLines : s.log.maxLines = maxLines

/-- The two parts of the name are never written again. -/
theorem named_step {fileName : List UInt8} {maxLines : Int} {s s' : LogRun} {c : WriteCall}
    (hs : Named fileName maxLines s) (h : s.step c = some s') : Named fileName maxLines s' := by
  obtain ⟨l, opened, buf, file, line, hcase, -, rfl⟩ := step_cases h
  obtain ⟨hdir, hlog, hmax, -⟩ := hcase.frame
  refine ⟨hs.storable, ?_, ?_, hmax.trans hs.maxLines⟩
  · rw [← hs.dir, FileLog.dir, FileLog.dir, hdir]
  · rw [← hs.base, FileLog.base, FileLog.base, hlog]

theorem named_reachable {fileName : List UInt8} (hname : ∀ b ∈ fileName, b ≠ 0) {maxLines : Int}
    {ok : LogRun → WriteCall → Prop} {s : LogRun}
    (h : Reachable (Started fileName maxLines) LogRun.step ok s) : Named fileName maxLines s := by
  refine h.invariant ?_ fun _ _ _ hs _ hstep => named_step hs hstep
  rintro s ⟨hinit⟩
  have hcase := init_cases hname hinit
  exact ⟨hcase.storable, hcase.dir, hcase.base, hcase.maxLines⟩

/-- The name of a new day, cut off at 254 bytes. -/
theorem Named.dayName {fileName : List UInt8} {maxLines : Int} {s : LogRun}
    (hs : Named fileName maxLines s) (d : Date) :
    s.log.dayName d =
      some ((dirPart fileName ++ tailText d ++ keptBase fileName).take 254) := by
  simp only [FileLog.dayName, hs.dir, hs.base, Option.bind_eq_bind, Option.bind_some]
  rfl

/-- The name of a full day, with the number of the file. -/
theorem Named.countName {fileName : List UInt8} {maxLines : Int} {s : LogRun}
    (hs : Named fileName maxLines s) (d : Date) (index : Int) :
    s.log.countName d index =
      some ((dirPart fileName ++ tailText d ++ keptBase fileName ++ 46 :: formatInt index).take
        254) := by
  simp only [FileLog.countName, hs.dir, hs.base, Option.bind_eq_bind, Option.bind_some]
  rfl

end TinyHTTP.Log
