import TinyHTTP.Lib.CString
import TinyHTTP.Lib.Decimal
import TinyHTTP.Lib.Taking
import TinyHTTP.Version02.LogWork

/-!
# TinyHTTP — version_02: what is written to the log files

`add_logbuf` copies a byte and then tests the byte of `buf` behind it, which is not yet
one of the copy: how much it copies is up to what `buf` held before.

* `addLogbuf_ok_iff` — what it copies, and where it stops.
* `addLogbuf_appended_iff` — when it appends the string.
* `logged_step` — what one message that is appended keeps.
-/

namespace TinyHTTP.Version02

open TinyHTTP.Lib

-- ---------------------------------------------------------------------------
-- add_logbuf
-- ---------------------------------------------------------------------------

/-- The sizes of `buf`, `timebuf` and `msg`. -/
def logbufSize : Nat := 2048
def timebufSize : Nat := 256
def msgSize : Nat := 128

/-- The `do … while` of `add_logbuf`, with `p_str` at the `k`-th byte of `p` and so many bytes of
`buf` from `index` on. -/
def addLogbufLoop (p : Mem) (psize : Nat) : Nat → Nat → Mem → Nat → Except Fault (Mem × Nat)
  | 0, _, _, _ => .error .outOfBounds
  | room + 1, k, buf, index =>
    if psize ≤ k then .error .outOfBounds
    else
      let buf := writeBytes buf index [p k]
      -- `*p_buf`, with `p_buf` behind the byte just written
      if room = 0 then .error .outOfBounds
      else if buf (index + 1) = 0 then .ok (buf, index + 1)
      else addLogbufLoop p psize room (k + 1) buf (index + 1)

/-- `add_logbuf`, with `p` in an array of `psize` bytes. -/
def addLogbuf (buf p : Mem) (psize index : Nat) : Except Fault (Mem × Nat) :=
  addLogbufLoop p psize (logbufSize - index) 0 buf index

/-- The first NUL of `buf` behind `index` is `n` bytes behind it. -/
structure StaleEnd (buf : Mem) (index n : Nat) : Prop where
  pos : 1 ≤ n
  nul : buf (index + n) = 0
  first : ∀ k, 1 ≤ k → k < n → buf (index + k) ≠ 0

theorem StaleEnd.unique {buf : Mem} {index m n : Nat} (hm : StaleEnd buf index m)
    (hn : StaleEnd buf index n) : m = n := by
  rcases Nat.lt_trichotomy m n with hlt | heq | hgt
  · exact absurd hm.nul (hn.first m hm.pos hlt)
  · exact heq
  · exact absurd hn.nul (hm.first n hn.pos hgt)

/-- The end is looked for behind `index` only. -/
theorem StaleEnd.congr {buf buf' : Mem} {index n : Nat} (h : StaleEnd buf index n)
    (hbuf : ∀ j, index < j → buf' j = buf j) : StaleEnd buf' index n where
  pos := h.pos
  nul := by
    have := h.pos
    rw [hbuf _ (by omega)]
    exact h.nul
  first := by
    intro k hk hkn
    rw [hbuf _ (by omega)]
    exact h.first k hk hkn

theorem staleEnd_one_iff {buf : Mem} {index : Nat} :
    StaleEnd buf index 1 ↔ buf (index + 1) = 0 := by
  constructor
  · exact fun h => h.nul
  · intro h
    exact ⟨Nat.le_refl 1, h, fun k hk hk1 => absurd hk1 (Nat.not_lt_of_le hk)⟩

theorem staleEnd_succ_iff {buf : Mem} {index n : Nat} (hn : 1 ≤ n) :
    StaleEnd buf index (n + 1) ↔ buf (index + 1) ≠ 0 ∧ StaleEnd buf (index + 1) n := by
  constructor
  · intro h
    refine ⟨h.first 1 (Nat.le_refl 1) (by omega), hn, ?_, ?_⟩
    · rw [Nat.add_assoc, Nat.add_comm 1]
      exact h.nul
    · intro k hk hkn
      rw [Nat.add_assoc, Nat.add_comm 1]
      exact h.first (k + 1) (by omega) (by omega)
  · rintro ⟨hne, h⟩
    refine ⟨by omega, ?_, ?_⟩
    · have hnul := h.nul
      rwa [Nat.add_assoc, Nat.add_comm 1] at hnul
    · intro k hk hkn
      obtain rfl | ⟨j, hj, rfl⟩ : k = 1 ∨ ∃ j, 1 ≤ j ∧ k = j + 1 := by
        rcases Nat.lt_or_ge 1 k with hlt | hge
        · exact .inr ⟨k - 1, by omega, by omega⟩
        · exact .inl (by omega)
      · exact hne
      · have hfirst := h.first j hj (by omega)
        rwa [Nat.add_assoc, Nat.add_comm 1] at hfirst

/-- **One call.** It copies as many bytes as there are up to the next NUL of `buf`, and writes
no NUL of its own. -/
theorem addLogbufLoop_ok_iff {p : Mem} {psize room k index : Nat} {buf buf' : Mem} {r : Nat} :
    addLogbufLoop p psize room k buf index = .ok (buf', r) ↔
      ∃ n, StaleEnd buf index n ∧ n < room ∧ k + n ≤ psize ∧
        buf' = writeBytes buf index (slice p k n) ∧ r = index + n := by
  induction room generalizing k buf index with
  | zero =>
    refine iff_of_false (fun h => by cases h) ?_
    rintro ⟨n, _, hn, _⟩
    exact absurd hn (Nat.not_lt_zero n)
  | succ room ih =>
    unfold addLogbufLoop
    by_cases hk : psize ≤ k
    · rw [if_pos hk]
      refine iff_of_false (fun h => by cases h) ?_
      rintro ⟨n, hend, _, hfit, _⟩
      have := hend.pos
      omega
    rw [if_neg hk]
    by_cases hroom : room = 0
    · rw [if_pos hroom]
      refine iff_of_false (fun h => by cases h) ?_
      rintro ⟨n, hend, hn, _⟩
      have := hend.pos
      omega
    simp only [hroom, if_false]
    have hstale : writeBytes buf index [p k] (index + 1) = buf (index + 1) :=
      writeBytes_of_ge (Nat.le_refl _)
    rw [hstale]
    by_cases hnul : buf (index + 1) = 0
    · have hone : StaleEnd buf index 1 := staleEnd_one_iff.mpr hnul
      rw [if_pos hnul]
      constructor
      · intro h
        cases h
        exact ⟨1, hone, by omega, by omega, rfl, rfl⟩
      · rintro ⟨n, hend, _, _, rfl, rfl⟩
        obtain rfl := hend.unique hone
        rfl
    · rw [if_neg hnul, ih]
      have hsame : ∀ j, index + 1 < j → writeBytes buf index [p k] j = buf j := fun j hj =>
        writeBytes_of_ge (by rw [List.length_singleton]; omega)
      have hslice : ∀ n, writeBytes (writeBytes buf index [p k]) (index + 1) (slice p (k + 1) n) =
          writeBytes buf index (slice p k (n + 1)) := by
        intro n
        rw [slice_succ]
        exact (writeBytes_append buf index [p k] (slice p (k + 1) n)).symm
      constructor
      · rintro ⟨n, hend, hn, hfit, rfl, rfl⟩
        have hend' := hend.congr fun j hj => (hsame j hj).symm
        refine ⟨n + 1, (staleEnd_succ_iff hend.pos).mpr ⟨hnul, hend'⟩, by omega, by omega,
          hslice n, by omega⟩
      · rintro ⟨n, hend, hn, hfit, rfl, rfl⟩
        obtain ⟨m, hm, rfl⟩ : ∃ m, 1 ≤ m ∧ n = m + 1 := by
          have hpos := hend.pos
          have hne : n ≠ 1 := by
            rintro rfl
            exact hnul hend.nul
          exact ⟨n - 1, by omega, by omega⟩
        have hend' := ((staleEnd_succ_iff hm).mp hend).2
        exact ⟨m, hend'.congr hsame, by omega, by omega, (hslice m).symm, by omega⟩

theorem addLogbuf_ok_iff {buf p buf' : Mem} {psize index r : Nat} :
    addLogbuf buf p psize index = .ok (buf', r) ↔
      ∃ n, StaleEnd buf index n ∧ index + n < logbufSize ∧ n ≤ psize ∧
        buf' = writeBytes buf index (slice p 0 n) ∧ r = index + n := by
  rw [addLogbuf, addLogbufLoop_ok_iff]
  refine exists_congr fun n => ?_
  rw [Nat.zero_add, Nat.lt_sub_iff_add_lt, Nat.add_comm n]

/-- `add_logbuf` has appended the string: its bytes and at most a terminator. -/
structure Appended (buf buf' : Mem) (index : Nat) (text : List UInt8) (r : Nat) : Prop where
  copied : slice buf' index text.length = text
  others : ∀ j, j < index ∨ index + text.length < j → buf' j = buf j
  terminator : buf' (index + text.length) = buf (index + text.length) ∨
    buf' (index + text.length) = 0
  returned : r = index + text.length

theorem addLogbuf_of_staleEnd {buf p : Mem} {psize index : Nat} {text : List UInt8}
    (hp : HasString p 0 text) (hpsize : text.length < psize)
    (hfit : index + text.length < logbufSize) (hend : StaleEnd buf index text.length) :
    addLogbuf buf p psize index = .ok (writeBytes buf index text, index + text.length) := by
  refine addLogbuf_ok_iff.mpr ⟨text.length, hend, hfit, Nat.le_of_lt hpsize, ?_, rfl⟩
  rw [slice_string hp (Nat.le_refl _), List.take_length]

/-- **Appending a string.** -/
theorem addLogbuf_appended_iff {buf p : Mem} {psize index : Nat} {text : List UInt8}
    (hp : HasString p 0 text) (hpsize : text.length < psize)
    (hfit : index + text.length < logbufSize) :
    (∃ buf' r, addLogbuf buf p psize index = .ok (buf', r) ∧ Appended buf buf' index text r) ↔
      StaleEnd buf index text.length := by
  constructor
  · rintro ⟨buf', r, hr, happ⟩
    obtain ⟨n, hend, _, _, _, hn⟩ := addLogbuf_ok_iff.mp hr
    obtain rfl : n = text.length := by
      have := happ.returned
      omega
    exact hend
  · intro hend
    refine ⟨_, _, addLogbuf_of_staleEnd hp hpsize hfit hend, slice_writeBytes .., ?_, .inl ?_, rfl⟩
    · rintro j (hj | hj)
      · exact writeBytes_of_lt hj
      · exact writeBytes_of_ge (Nat.le_of_lt hj)
    · exact writeBytes_of_ge (Nat.le_refl _)

-- ---------------------------------------------------------------------------
-- log_work
-- ---------------------------------------------------------------------------

/-- `struct tm`, as far as `get_time` prints it. -/
structure Tm where
  /-- `1900 + ptr->tm_year` -/
  year : Int
  /-- `1 + ptr->tm_mon` -/
  month : Nat
  day : Nat
  hour : Nat
  minute : Nat
  second : Nat
  le_year : -2 ^ 31 ≤ year
  year_lt : year < 2 ^ 31
  month_lt : month < 13
  day_lt : day < 32
  hour_lt : hour < 24
  minute_lt : minute < 60
  second_lt : second < 62

/-- `%04d` -/
def formatYear (year : Int) : List UInt8 :=
  if year < 0 then 45 :: padded 3 year.natAbs else padded 4 year.natAbs

/-- The text that `get_time` prints. -/
def Tm.text (t : Tm) : List UInt8 :=
  formatYear t.year ++ 45 :: padded 2 t.month ++ 45 :: padded 2 t.day ++ 45 :: padded 2 t.hour ++
    45 :: padded 2 t.minute ++ 45 :: padded 2 t.second

def getTime (buf : Mem) (t : Tm) : Mem := writeBytes buf 0 (t.text ++ [0])

/-- The file that is opened at a time. -/
def logFilename (t : Tm) : List UInt8 := bytes "../log/" ++ t.text ++ bytes ".log"

/-- The `msg` of a node. -/
structure Msg where
  mem : Mem
  text : List UInt8
  string : HasString mem 0 text
  fits : text.length < msgSize

/-- The variables of `log_work`, and the file behind `fd` with what has been written to it; the
earlier files are still open. -/
structure LogBuffer where
  buf : Mem
  timebuf : Mem
  index : Nat
  total : Nat
  filename : List UInt8
  file : List UInt8
  earlier : List (List UInt8 × List UInt8)

/-- What `log_work` meets when it handles one node. -/
structure Handled where
  msg : Msg
  /-- the time of the message -/
  time : Tm
  /-- the time of a change of files, and whether `open` succeeds -/
  rotated : Tm
  opened : Bool
  write : Taking

/-- `log_work` before its loop, with anything in its arrays. -/
def LogBuffer.start (buf timebuf : Mem) (t : Tm) : LogBuffer where
  buf := buf
  timebuf := getTime timebuf t
  index := 0
  total := 0
  filename := logFilename t
  file := []
  earlier := []

/-- `if(total > 1048576)`; `none` is `exit(1)`. -/
def LogBuffer.rotate (s : LogBuffer) (h : Handled) : Option LogBuffer :=
  if s.total > 1048576 then
    if h.opened then
      some { s with
        timebuf := getTime s.timebuf h.rotated
        filename := logFilename h.rotated
        file := []
        earlier := s.earlier ++ [(s.filename, s.file)]
        total := 0 }
    else none
  else some s

/-- `if(index > 1024)`; `none` is `exit(1)`. -/
def LogBuffer.flush (s : LogBuffer) (h : Handled) : Option LogBuffer :=
  if s.index > 1024 then
    (h.write.of (slice s.buf 0 s.index)).map fun written =>
      { s with file := s.file ++ written, total := s.total + s.index, index := 0 }
  else some s

/-- The two calls of `add_logbuf`. -/
def LogBuffer.append (s : LogBuffer) (h : Handled) : Except Fault LogBuffer := do
  let timebuf := getTime s.timebuf h.time
  let (buf, index) ← addLogbuf s.buf timebuf timebufSize s.index
  let (buf, index) ← addLogbuf buf h.msg.mem msgSize index
  return { s with buf := buf, timebuf := timebuf, index := index }

/-- One node; `none` is `exit(1)`, or that there is no defined behaviour. -/
def LogBuffer.handle (s : LogBuffer) (h : Handled) : Option LogBuffer := do
  let s ← s.rotate h
  let s ← s.flush h
  (s.append h).toOption

/-- The bytes that have been written to the files, in their order. -/
def LogBuffer.written (s : LogBuffer) : List UInt8 := s.earlier.flatMap Prod.snd ++ s.file

/-- Where the next bytes go: behind the others, or over them if these are to be written first. -/
def LogBuffer.place (s : LogBuffer) : Nat := if s.index > 1024 then 0 else s.index

/-- The old bytes of `buf` end where the timestamp and the message do, and what is to be written
first is written whole. -/
structure Appendable (s : LogBuffer) (h : Handled) : Prop where
  written : s.index > 1024 → h.write.All s.index
  time : StaleEnd s.buf s.place h.time.text.length
  msg : StaleEnd s.buf (s.place + h.time.text.length) h.msg.text.length

/-- `log_work`, with what it has consumed so far. -/
structure LogRun where
  log : LogBuffer
  consumed : List (Tm × Msg)

def LogRun.step (s : LogRun) (h : Handled) : Option LogRun :=
  (s.log.handle h).map fun log => ⟨log, s.consumed ++ [(h.time, h.msg)]⟩

/-- The beginning of `log_work`. -/
def LogStarted (s : LogRun) : Prop :=
  ∃ buf timebuf t, s = ⟨.start buf timebuf t, []⟩

/-- The files and the buffer hold what has been consumed, and the buffer holds its part. -/
structure Logged (s : LogRun) : Prop where
  content : s.log.written ++ slice s.log.buf 0 s.log.index =
    s.consumed.flatMap fun (t, m) => t.text ++ m.text
  inside : s.log.index ≤ logbufSize

-- ---------------------------------------------------------------------------
-- Timestamps
-- ---------------------------------------------------------------------------

theorem length_formatYear {year : Int} (hle : -2 ^ 31 ≤ year) (hlt : year < 2 ^ 31) :
    (formatYear year).length ≤ 11 := by
  have hdigits : (digits year.natAbs).length ≤ 10 :=
    (length_digits_iff (by decide)).mpr (by omega)
  unfold formatYear padded
  split
  · rw [List.length_cons, List.length_append, List.length_replicate]
    omega
  · rw [List.length_append, List.length_replicate]
    omega

theorem Tm.length_text (t : Tm) : t.text.length ≤ 26 := by
  have hyear := length_formatYear t.le_year t.year_lt
  have hpadded : ∀ n, n < 62 → (padded 2 n).length = 2 := fun n hn =>
    length_padded (by decide) (by omega)
  have hmonth := hpadded t.month (Nat.lt_trans t.month_lt (by decide))
  have hday := hpadded t.day (Nat.lt_trans t.day_lt (by decide))
  have hhour := hpadded t.hour (Nat.lt_trans t.hour_lt (by decide))
  have hminute := hpadded t.minute (Nat.lt_trans t.minute_lt (by decide))
  have hsecond := hpadded t.second t.second_lt
  simp only [Tm.text, List.length_append, List.length_cons, hmonth, hday, hhour, hminute, hsecond]
  omega

theorem Tm.text_nonzero (t : Tm) : ∀ b ∈ t.text, b ≠ 0 := by
  have hpadded : ∀ w n, ∀ b ∈ padded w n, b ≠ 0 := by
    rintro w n b hb rfl
    exact absurd (isDigit_of_mem_padded hb) (by decide)
  have hyear : ∀ b ∈ formatYear t.year, b ≠ 0 := by
    intro b hb
    unfold formatYear at hb
    split at hb
    · rcases List.mem_cons.mp hb with rfl | hb
      · decide
      · exact hpadded _ _ b hb
    · exact hpadded _ _ b hb
  intro b hb
  simp only [Tm.text, List.mem_append, List.mem_cons] at hb
  rcases hb with ((((hb | rfl | hb) | rfl | hb) | rfl | hb) | rfl | hb) | rfl | hb
  · exact hyear b hb
  all_goals first | exact hpadded _ _ b hb | decide

theorem getTime_string (buf : Mem) (t : Tm) : HasString (getTime buf t) 0 t.text :=
  hasString_writeBytes_nul buf 0 t.text_nonzero

-- ---------------------------------------------------------------------------
-- One message
-- ---------------------------------------------------------------------------

theorem LogBuffer.rotate_keeps {s s' : LogBuffer} {h : Handled} (hs : s.rotate h = some s') :
    s'.written = s.written ∧ s'.buf = s.buf ∧ s'.index = s.index := by
  unfold LogBuffer.rotate at hs
  split at hs
  · split at hs
    · cases hs
      simp [LogBuffer.written]
    · cases hs
  · cases hs
    exact ⟨rfl, rfl, rfl⟩

theorem LogBuffer.flush_keeps {s s' : LogBuffer} {h : Handled} (hs : s.flush h = some s')
    (hall : s.index > 1024 → h.write.All s.index) :
    s'.written ++ slice s'.buf 0 s'.index = s.written ++ slice s.buf 0 s.index ∧
      s'.buf = s.buf ∧ s'.index = s.place := by
  unfold LogBuffer.flush at hs
  split at hs
  · rename_i hfull
    rw [Taking.of_all (by rw [length_slice]; exact hall hfull)] at hs
    cases hs
    refine ⟨?_, rfl, (if_pos hfull).symm⟩
    show s.earlier.flatMap Prod.snd ++ (s.file ++ _) ++ [] = _
    rw [List.append_nil, LogBuffer.written, List.append_assoc]
  · rename_i hroom
    cases hs
    exact ⟨rfl, rfl, (if_neg hroom).symm⟩

/-- Both strings are appended, if the old bytes of `buf` end behind each of them. -/
theorem LogBuffer.append_eq {s : LogBuffer} {h : Handled} (hindex : s.index ≤ 1024)
    (htime : StaleEnd s.buf s.index h.time.text.length)
    (hmsg : StaleEnd s.buf (s.index + h.time.text.length) h.msg.text.length) :
    s.append h = .ok { s with
      buf := writeBytes s.buf s.index (h.time.text ++ h.msg.text)
      timebuf := getTime s.timebuf h.time
      index := s.index + (h.time.text ++ h.msg.text).length } := by
  have hlen := h.time.length_text
  have hfits : h.msg.text.length < 128 := h.msg.fits
  have hsize : s.index + h.time.text.length + h.msg.text.length < 2048 := by omega
  have hfirst := @addLogbuf_of_staleEnd s.buf _ timebufSize s.index _
    (getTime_string s.timebuf h.time) (show _ < 256 by omega) (show _ < 2048 by omega) htime
  have hmsg' : StaleEnd (writeBytes s.buf s.index h.time.text) (s.index + h.time.text.length)
      h.msg.text.length := hmsg.congr fun j hj => writeBytes_of_ge (Nat.le_of_lt hj)
  have hsecond := addLogbuf_of_staleEnd h.msg.string h.msg.fits hsize hmsg'
  simp only [LogBuffer.append, hfirst, hsecond, bind, Except.bind, writeBytes_append,
    List.length_append, Nat.add_assoc]
  rfl

theorem LogBuffer.place_le (s : LogBuffer) : s.place ≤ 1024 := by
  unfold LogBuffer.place
  split <;> omega

theorem LogBuffer.handle_cases {s s' : LogBuffer} {h : Handled} (hs : s.handle h = some s') :
    ∃ r f, s.rotate h = some r ∧ r.flush h = some f ∧ (f.append h).toOption = some s' := by
  obtain ⟨r, hr, hs⟩ := Option.bind_eq_some_iff.mp hs
  obtain ⟨f, hf, hs⟩ := Option.bind_eq_some_iff.mp hs
  exact ⟨r, f, hr, hf, hs⟩

/-- What a change of files and the writing of `buf` leave is what is appended to. -/
theorem Appendable.append_eq {s r f : LogBuffer} {h : Handled} (hok : Appendable s h)
    (hr : s.rotate h = some r) (hf : r.flush h = some f) :
    f.written ++ slice f.buf 0 f.index = s.written ++ slice s.buf 0 s.index ∧ f.index ≤ 1024 ∧
      f.append h = .ok { f with
        buf := writeBytes f.buf f.index (h.time.text ++ h.msg.text)
        timebuf := getTime f.timebuf h.time
        index := f.index + (h.time.text ++ h.msg.text).length } := by
  obtain ⟨hwritten, hbuf, hindex⟩ := LogBuffer.rotate_keeps hr
  obtain ⟨hcontent, hbuf', hplace⟩ := LogBuffer.flush_keeps hf (by rw [hindex]; exact hok.written)
  have hat : f.index = s.place := by rw [hplace, LogBuffer.place, LogBuffer.place, hindex]
  have hle := s.place_le
  rw [hwritten, hbuf, hindex] at hcontent
  refine ⟨hcontent, by omega, LogBuffer.append_eq (by omega) ?_ ?_⟩
  · rw [hbuf', hbuf, hat]
    exact hok.time
  · rw [hbuf', hbuf, hat]
    exact hok.msg

/-- **One message** that is appended. -/
theorem logged_step {s s' : LogRun} {h : Handled} (hs : Logged s) (hok : Appendable s.log h)
    (hstep : s.step h = some s') : Logged s' := by
  obtain ⟨log, hlog, rfl⟩ := Option.map_eq_some_iff.mp hstep
  obtain ⟨r, f, hr, hf, happ⟩ := LogBuffer.handle_cases hlog
  obtain ⟨hcontent, hindex, heq⟩ := hok.append_eq hr hf
  rw [heq] at happ
  cases happ
  have hlen := h.time.length_text
  have hfits : h.msg.text.length < 128 := h.msg.fits
  constructor
  · show f.written ++ slice (writeBytes f.buf f.index _) 0 (f.index + _) = _
    rw [slice_append, ← List.append_assoc, hcontent, hs.content, List.flatMap_append,
      List.flatMap_singleton]
  · show f.index + (h.time.text ++ h.msg.text).length ≤ 2048
    rw [List.length_append]
    omega

/-- Such a message is handled, if `open` does not fail. -/
theorem handled {s : LogRun} {h : Handled} (hok : Appendable s.log h) (hopen : h.opened = true) :
    ∃ s', s.step h = some s' := by
  obtain ⟨r, hr⟩ : ∃ r, s.log.rotate h = some r := by
    unfold LogBuffer.rotate
    split
    · exact ⟨_, rfl⟩
    · exact ⟨_, rfl⟩
  have hkeeps := LogBuffer.rotate_keeps hr
  obtain ⟨f, hf⟩ : ∃ f, r.flush h = some f := by
    unfold LogBuffer.flush
    split
    · rename_i hfull
      rw [Taking.of_all (by rw [length_slice, hkeeps.2.2]; exact hok.written (hkeeps.2.2 ▸ hfull))]
      exact ⟨_, rfl⟩
    · exact ⟨_, rfl⟩
  obtain ⟨-, -, heq⟩ := hok.append_eq hr hf
  have hhandle : s.log.handle h = (f.append h).toOption := by
    unfold LogBuffer.handle
    simp only [hr, hf, bind, Option.bind]
  rw [LogRun.step, hhandle, heq]
  exact ⟨_, rfl⟩

-- ---------------------------------------------------------------------------
-- Any messages
-- ---------------------------------------------------------------------------

theorem logged_started {s : LogRun} (hs : LogStarted s) : Logged s := by
  obtain ⟨buf, timebuf, t, rfl⟩ := hs
  exact ⟨rfl, Nat.zero_le _⟩

/-- **What the log holds.** A string is appended exactly if the old bytes of `buf` end where it
does; as long as they do, nothing is lost. -/
theorem log_content (buf p : Mem) (psize index : Nat) (text : List UInt8) (s : LogRun) :
    (HasString p 0 text → text.length < psize → index + text.length < logbufSize →
      ((∃ buf' r, addLogbuf buf p psize index = .ok (buf', r) ∧
        Appended buf buf' index text r) ↔ StaleEnd buf index text.length)) ∧
      (Reachable LogStarted LogRun.step (fun s h => Appendable s.log h) s →
        Logged s ∧ ∀ h, Appendable s.log h → h.opened = true → ∃ s', s.step h = some s') := by
  constructor
  · intro hp hpsize hfit
    exact addLogbuf_appended_iff hp hpsize hfit
  · intro hs
    refine ⟨hs.invariant (fun s => logged_started) ?_, fun h => handled⟩
    exact fun s h s' hs hok hstep => logged_step hs hok hstep

/-- The messages are those of the nodes of the list, each once and in the order in which they were
linked, when what `log_work` has consumed is what it has taken from there. -/
theorem logged_nodes {ι A : Type} [DecidableEq ι] [DecidableEq A] {l : LogList ι A Msg}
    (hl : Reachable LogInitial LogList.step (fun _ _ => True) l) {s : LogRun}
    (hsame : s.consumed.map Prod.snd = l.buf) (hs : Logged s) :
    l.copied <+: l.pushed ∧ l.copied.Nodup ∧
      (s.consumed.map Prod.snd).map some = l.copied.map (fun a => (l.list.node a).map MsgNode.msg) ∧
      s.log.written ++ slice s.log.buf 0 s.log.index =
        s.consumed.flatMap fun (t, m) => t.text ++ m.text := by
  obtain ⟨_, hinv⟩ : ∃ nodes, Inv l nodes := by
    refine hl.invariant (P := fun l => ∃ nodes, Inv l nodes) (fun l hl => ⟨[], inv_initial hl⟩) ?_
    rintro l a l' ⟨nodes, hl⟩ - hstep
    exact inv_step hl hstep
  have hintact := hinv.intact
  refine ⟨hintact.order.2, ?_, ?_, hs.content⟩
  · exact hintact.once.sublist hintact.order.2.sublist
  · rw [hsame]
    exact hintact.messages

/-- Half past noon on a day in March. -/
def noon : Tm where
  year := 2025
  month := 3
  day := 17
  hour := 12
  minute := 30
  second := 0
  le_year := by decide
  year_lt := by decide
  month_lt := by decide
  day_lt := by decide
  hour_lt := by decide
  minute_lt := by decide
  second_lt := by decide

/-- A message of two bytes. -/
def okMsg : Msg where
  mem := writeBytes (fun _ => 0) 0 (bytes "ok" ++ [0])
  text := bytes "ok"
  string := hasString_writeBytes_nul _ 0 (by decide +kernel)
  fits := by decide +kernel

/-- The message, at noon. -/
def handledOk : Handled := ⟨okMsg, noon, noon, true, .upTo 2048⟩

/-- A buffer in which the timestamp ends before a NUL, and the message before the next. -/
def luckyBuf : Mem := fun j => if j = 19 ∨ j = 21 then 0 else 1

theorem length_noon : noon.text.length = 19 := by decide +kernel

theorem staleEnd_lucky {index n : Nat} (hn : 1 ≤ n) (hend : index + n = 19 ∨ index + n = 21)
    (hnone : ∀ k, 1 ≤ k → k < n → index + k ≠ 19 ∧ index + k ≠ 21) :
    StaleEnd luckyBuf index n := by
  refine ⟨hn, if_pos hend, ?_⟩
  intro k hk hkn
  obtain ⟨h19, h21⟩ := hnone k hk hkn
  rw [luckyBuf, if_neg (not_or.mpr ⟨h19, h21⟩)]
  decide

theorem appendable_lucky (timebuf : Mem) :
    Appendable (.start luckyBuf timebuf noon) handledOk where
  written := fun h => absurd (show (0 : Nat) > 1024 from h) (by decide)
  time := by
    show StaleEnd luckyBuf 0 noon.text.length
    rw [length_noon]
    exact staleEnd_lucky (by decide) (.inl rfl) (by omega)
  msg := by
    show StaleEnd luckyBuf (0 + noon.text.length) 2
    rw [length_noon]
    exact staleEnd_lucky (by decide) (.inr rfl) (by omega)

/-- In that buffer two bytes are appended at 19, and the message is logged. -/
theorem log_content_lucky :
    (∃ buf' r, addLogbuf luckyBuf okMsg.mem msgSize 19 = .ok (buf', r) ∧
      Appended luckyBuf buf' 19 (bytes "ok") r) ∧
      ∃ s, LogRun.step ⟨.start luckyBuf (fun _ => 0) noon, []⟩ handledOk = some s ∧ Logged s := by
  have hstart : LogStarted ⟨.start luckyBuf (fun _ => 0) noon, []⟩ := ⟨_, _, _, rfl⟩
  have hok := appendable_lucky fun _ => 0
  have hends := fun s => log_content luckyBuf okMsg.mem msgSize 19 (bytes "ok") s
  obtain ⟨s, hs⟩ := ((hends _).2 (.init hstart)).2 handledOk hok rfl
  have hend : StaleEnd luckyBuf 19 2 := staleEnd_lucky (by decide) (.inr rfl) (by omega)
  exact ⟨((hends s).1 okMsg.string (by decide) (by decide)).mpr hend, s, hs,
    ((hends s).2 (.step handledOk (.init hstart) hok hs)).1⟩

/-- In a fresh buffer `add_logbuf` copies one byte of any string. -/
theorem not_addLogbuf_appended :
    ¬ ∀ (buf p : Mem) (psize index : Nat) (text : List UInt8), HasString p 0 text →
      text.length < psize → index + text.length < logbufSize →
        ∃ buf' r, addLogbuf buf p psize index = .ok (buf', r) ∧
          Appended buf buf' index text r := by
  intro hall
  have happ := hall (fun _ => 0) okMsg.mem msgSize 0 _ okMsg.string (by decide) (by decide)
  have hend := (addLogbuf_appended_iff okMsg.string (by decide) (by decide)).mp happ
  exact hend.first 1 (Nat.le_refl 1) (by decide) rfl

end TinyHTTP.Version02
