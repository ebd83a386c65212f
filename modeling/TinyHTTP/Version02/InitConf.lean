import TinyHTTP.Lib.CString
import TinyHTTP.Version02.HandleRequest

/-!
# TinyHTTP — version_02: the configuration file

`init_conf` scans every line for two words, into arrays that keep what an earlier line
has left there, and does not ask how many it has got: a line with one word is completed
by the last value before it.

* `assign_ok_iff` — what a key and a value do.
* `readLines_of_tidy` — what is in `conf` and in the arrays behind any lines that do no
  harm.
* `lineLocal_iff` — when every line counts for itself.
-/

namespace TinyHTTP.Version02

open TinyHTTP.Lib
open TinyHTTP.Http (asString lf)

-- ---------------------------------------------------------------------------
-- init_conf
-- ---------------------------------------------------------------------------

/-- `struct conf_http_t`; `doc` is the string in its 50 bytes. -/
@[ext] structure HttpdConf where
  port : Int
  listenNum : Int
  threadNum : Int
  doc : List UInt8
  eventNum : Int
  deriving DecidableEq, Repr

def atoi (s : List UInt8) : Int := toInt32 (atolList s)

/-- `%s` of `sscanf`: a word, and what is behind it. -/
def scanWord (s : List UInt8) : Option (List UInt8 × List UInt8) :=
  let s := s.dropWhile isSpace
  if s = [] then none else some (s.takeWhile fun b => !isSpace b, s.dropWhile fun b => !isSpace b)

/-- What `"%s %s"` converts. -/
inductive Scanned where
  | none
  | key (key : List UInt8)
  | both (key value : List UInt8)
  deriving DecidableEq, Repr

def scanLine (buf : List UInt8) : Scanned :=
  match scanWord (asString buf) with
  | .none => .none
  | some (key, rest) =>
    match scanWord rest with
    | .none => .key key
    | some (value, _) => .both key value

/-- `sscanf(buf, "%s %s", key, value)` -/
def sscanf (buf key value : List UInt8) : List UInt8 × List UInt8 :=
  match scanLine buf with
  | .none => (key, value)
  | .key key => (key, value)
  | .both key value => (key, value)

/-- The five comparisons. -/
def HttpdConf.assign (conf : HttpdConf) (key value : List UInt8) : Except Fault HttpdConf := do
  let conf := if key = bytes "PORT" then { conf with port := atoi value } else conf
  let conf := if key = bytes "THREAD_NUM" then { conf with threadNum := atoi value } else conf
  let conf := if key = bytes "LISTEN_NUM" then { conf with listenNum := atoi value } else conf
  let conf ←
    if key = bytes "FILE_DIR" then
      -- `strcpy` to `char doc[50]`
      if value.length < 50 then .ok { conf with doc := value } else .error .outOfBounds
    else .ok conf
  return if key = bytes "EVENT_LIST" then { conf with eventNum := atoi value } else conf

/-- `conf` and the two arrays. -/
structure ConfScan where
  conf : HttpdConf
  key : List UInt8
  value : List UInt8
  deriving DecidableEq, Repr

/-- The body of the `while` of `init_conf`. -/
def ConfScan.line (s : ConfScan) (buf : List UInt8) : Except Fault ConfScan :=
  let (key, value) := sscanf buf s.key s.value
  (s.conf.assign key value).map fun conf => ⟨conf, key, value⟩

/-- `init_conf` over what `fgets` returns; the arrays are empty at first. -/
def readLines (conf : HttpdConf) (lines : List (List UInt8)) : Except Fault ConfScan :=
  lines.foldlM ConfScan.line ⟨conf, [], []⟩

/-- The calls of `fgets`, with `line` read and room for so many bytes more. -/
def fgetsConf (room : Nat) (line : List UInt8) : List UInt8 → List (List UInt8)
  | [] => if line = [] then [] else [line]
  | c :: file =>
    if c = lf ∨ room = 1 then (line ++ [c]) :: fgetsConf 127 [] file
    else fgetsConf (room - 1) (line ++ [c]) file

/-- `init_conf`, with a file that can be read. -/
def initConf (conf : HttpdConf) (file : List UInt8) : Except Fault HttpdConf :=
  (readLines conf (fgetsConf 127 [] file)).map ConfScan.conf

-- ---------------------------------------------------------------------------
-- Lines that count for themselves
-- ---------------------------------------------------------------------------

/-- The rest of a file, cut behind every newline. -/
def linesFrom (line : List UInt8) : List UInt8 → List (List UInt8)
  | [] => if line = [] then [] else [line]
  | c :: file =>
    if c = lf then (line ++ [c]) :: linesFrom [] file else linesFrom (line ++ [c]) file

/-- The lines of a file, with their newlines. -/
def fileLines (file : List UInt8) : List (List UInt8) := linesFrom [] file

/-- The value of the last line that has this key and a value. -/
def lastValue (key : List UInt8) (lines : List (List UInt8)) : Option (List UInt8) :=
  (lines.filterMap fun line =>
    match scanLine line with
    | .both k value => if k = key then some value else none
    | _ => none).getLast?

/-- `conf` behind some lines, if each counts for itself. -/
def HttpdConf.behind (conf : HttpdConf) (lines : List (List UInt8)) : HttpdConf where
  port := (lastValue (bytes "PORT") lines).elim conf.port atoi
  listenNum := (lastValue (bytes "LISTEN_NUM") lines).elim conf.listenNum atoi
  threadNum := (lastValue (bytes "THREAD_NUM") lines).elim conf.threadNum atoi
  doc := (lastValue (bytes "FILE_DIR") lines).getD conf.doc
  eventNum := (lastValue (bytes "EVENT_LIST") lines).elim conf.eventNum atoi

/-- What a line does by itself. -/
def HttpdConf.own (conf : HttpdConf) (line : List UInt8) : Except Fault HttpdConf :=
  match scanLine line with
  | .both key value => conf.assign key value
  | _ => .ok conf

/-- Every line does what it does by itself, whatever has been read before, and every field ends
up with its last value. -/
structure LineLocal (conf : HttpdConf) (file : List UInt8) : Prop where
  ends : initConf conf file = .ok (conf.behind (fileLines file))
  own : ∀ pre line, pre ++ [line] <+: fileLines file → ∀ s, readLines conf pre = .ok s →
    (s.line line).map ConfScan.conf = s.conf.own line

/-- The second word of the last line that has one. -/
def carried (lines : List (List UInt8)) : List UInt8 :=
  (lines.filterMap fun line =>
    match scanLine line with
    | .both _ value => some value
    | _ => none).getLast?.getD []

/-- The value is the one that the field of this key has. -/
structure Repeats (conf : HttpdConf) (key value : List UInt8) : Prop where
  port : key = bytes "PORT" → atoi value = conf.port
  listenNum : key = bytes "LISTEN_NUM" → atoi value = conf.listenNum
  threadNum : key = bytes "THREAD_NUM" → atoi value = conf.threadNum
  doc : key = bytes "FILE_DIR" → value = conf.doc ∧ value.length < 50
  eventNum : key = bytes "EVENT_LIST" → atoi value = conf.eventNum

/-- A line does no harm behind others: a directory fits its array, and a key without a value is
completed by one that its field has anyway. -/
structure Harmless (conf : HttpdConf) (pre : List (List UInt8)) (line : List UInt8) : Prop where
  short : ∀ value, scanLine line = .both (bytes "FILE_DIR") value → value.length < 50
  key : ∀ key, scanLine line = .key key → Repeats (conf.behind pre) key (carried pre)

/-- No line does harm. -/
def Tidy (conf : HttpdConf) (lines : List (List UInt8)) : Prop :=
  ∀ pre line, pre ++ [line] <+: lines → Harmless conf pre line

-- ---------------------------------------------------------------------------
-- A key and a value
-- ---------------------------------------------------------------------------

/-- The field of the key gets the value. -/
def HttpdConf.set (conf : HttpdConf) (key value : List UInt8) : HttpdConf where
  port := if key = bytes "PORT" then atoi value else conf.port
  listenNum := if key = bytes "LISTEN_NUM" then atoi value else conf.listenNum
  threadNum := if key = bytes "THREAD_NUM" then atoi value else conf.threadNum
  doc := if key = bytes "FILE_DIR" then value else conf.doc
  eventNum := if key = bytes "EVENT_LIST" then atoi value else conf.eventNum

theorem assign_of_fits {conf : HttpdConf} {key value : List UInt8}
    (h : key = bytes "FILE_DIR" → value.length < 50) :
    conf.assign key value = .ok (conf.set key value) := by
  unfold HttpdConf.assign HttpdConf.set
  by_cases hdoc : key = bytes "FILE_DIR"
  · simp only [hdoc, if_true, h hdoc, bind, Except.bind, pure, Except.pure]
    congr 1
  · simp only [hdoc, if_false, bind, Except.bind, pure, Except.pure]
    congr 1
    split_ifs <;> rfl

theorem assign_ok_iff {conf conf' : HttpdConf} {key value : List UInt8} :
    conf.assign key value = .ok conf' ↔
      (key = bytes "FILE_DIR" → value.length < 50) ∧ conf' = conf.set key value := by
  by_cases h : key = bytes "FILE_DIR" → value.length < 50
  · rw [assign_of_fits h, Except.ok.injEq, eq_comm]
    exact (and_iff_right h).symm
  · refine iff_of_false ?_ fun h' => h h'.1
    obtain ⟨hdoc, hlong⟩ := Classical.not_imp.mp h
    intro hok
    simp only [HttpdConf.assign, hdoc, if_true, hlong, if_false, bind, Except.bind] at hok
    cases hok

theorem assign_self_iff {conf : HttpdConf} {key value : List UInt8} :
    conf.assign key value = .ok conf ↔ Repeats conf key value := by
  rw [assign_ok_iff]
  constructor
  · rintro ⟨hfits, hset⟩
    refine ⟨fun h => ?_, fun h => ?_, fun h => ?_, fun h => ⟨?_, hfits h⟩, fun h => ?_⟩
    · have hfield := congrArg HttpdConf.port hset
      rw [HttpdConf.set, if_pos h] at hfield
      exact hfield.symm
    · have hfield := congrArg HttpdConf.listenNum hset
      rw [HttpdConf.set, if_pos h] at hfield
      exact hfield.symm
    · have hfield := congrArg HttpdConf.threadNum hset
      rw [HttpdConf.set, if_pos h] at hfield
      exact hfield.symm
    · have hfield := congrArg HttpdConf.doc hset
      rw [HttpdConf.set, if_pos h] at hfield
      exact hfield.symm
    · have hfield := congrArg HttpdConf.eventNum hset
      rw [HttpdConf.set, if_pos h] at hfield
      exact hfield.symm
  · intro h
    have hkeep : ∀ {p : Prop} [Decidable p] {α : Type} {new old : α}, (p → new = old) →
        old = if p then new else old := by
      intro p _ α new old hp
      split
      · rename_i hpos
        exact (hp hpos).symm
      · rfl
    refine ⟨fun hdoc => (h.doc hdoc).2, HttpdConf.ext ?_ ?_ ?_ ?_ ?_⟩
    · exact hkeep h.port
    · exact hkeep h.listenNum
    · exact hkeep h.threadNum
    · exact hkeep fun hdoc => (h.doc hdoc).1
    · exact hkeep h.eventNum

/-- The field has the value now. -/
theorem repeats_set {conf : HttpdConf} {key value : List UInt8}
    (h : key = bytes "FILE_DIR" → value.length < 50) : Repeats (conf.set key value) key value where
  port := fun hkey => (if_pos hkey).symm
  listenNum := fun hkey => (if_pos hkey).symm
  threadNum := fun hkey => (if_pos hkey).symm
  doc := fun hkey => ⟨(if_pos hkey).symm, h hkey⟩
  eventNum := fun hkey => (if_pos hkey).symm

/-- The empty key that is there at first is no key. -/
theorem repeats_nil (conf : HttpdConf) (value : List UInt8) : Repeats conf [] value where
  port := fun h => absurd h (by decide +kernel)
  listenNum := fun h => absurd h (by decide +kernel)
  threadNum := fun h => absurd h (by decide +kernel)
  doc := fun h => absurd h (by decide +kernel)
  eventNum := fun h => absurd h (by decide +kernel)

-- ---------------------------------------------------------------------------
-- One line more
-- ---------------------------------------------------------------------------

section
variable {conf : HttpdConf} {lines : List (List UInt8)} {line key value : List UInt8}

theorem lastValue_snoc (field : List UInt8) (h : scanLine line = .both key value) :
    lastValue field (lines ++ [line]) =
      if key = field then some value else lastValue field lines := by
  unfold lastValue
  rw [List.filterMap_append, List.filterMap_cons, h]
  dsimp only
  split_ifs <;> simp

theorem lastValue_snoc_of_not (field : List UInt8)
    (h : ∀ key value, scanLine line ≠ .both key value) :
    lastValue field (lines ++ [line]) = lastValue field lines := by
  unfold lastValue
  rw [List.filterMap_append, List.filterMap_cons]
  cases hscan : scanLine line with
  | none => simp
  | key key => simp
  | both key value => exact absurd hscan (h key value)

theorem carried_snoc (h : scanLine line = .both key value) : carried (lines ++ [line]) = value := by
  unfold carried
  rw [List.filterMap_append, List.filterMap_cons, h]
  simp

theorem carried_snoc_of_not (h : ∀ key value, scanLine line ≠ .both key value) :
    carried (lines ++ [line]) = carried lines := by
  unfold carried
  rw [List.filterMap_append, List.filterMap_cons]
  cases hscan : scanLine line with
  | none => simp
  | key key => simp
  | both key value => exact absurd hscan (h key value)

theorem behind_snoc (h : scanLine line = .both key value) :
    conf.behind (lines ++ [line]) = (conf.behind lines).set key value := by
  unfold HttpdConf.behind HttpdConf.set
  simp only [lastValue_snoc _ h]
  congr 1 <;> split_ifs <;> rfl

theorem behind_snoc_of_not (h : ∀ key value, scanLine line ≠ .both key value) :
    conf.behind (lines ++ [line]) = conf.behind lines := by
  unfold HttpdConf.behind
  simp only [lastValue_snoc_of_not _ h]

theorem readLines_snoc : readLines conf (lines ++ [line]) =
    (readLines conf lines).bind fun s => s.line line := by
  unfold readLines
  rw [List.foldlM_append]
  cases List.foldlM ConfScan.line ⟨conf, [], []⟩ lines with
  | error e => rfl
  | ok s =>
    show (s.line line >>= fun s => .ok s) = s.line line
    cases s.line line <;> rfl

/-- What is in the arrays behind a line, and what has been done with it. -/
theorem line_ok_iff {s s' : ConfScan} : s.line line = .ok s' ↔
    sscanf line s.key s.value = (s'.key, s'.value) ∧
      s.conf.assign s'.key s'.value = .ok s'.conf := by
  unfold ConfScan.line
  obtain ⟨key, value⟩ := sscanf line s.key s.value
  rw [map_ok]
  constructor
  · rintro ⟨conf', hassign, rfl⟩
    exact ⟨rfl, hassign⟩
  · rintro ⟨hscan, hassign⟩
    cases hscan
    exact ⟨s'.conf, hassign, rfl⟩

theorem Tidy.mono {lines' : List (List UInt8)} (h : Tidy conf lines) (hle : lines' <+: lines) :
    Tidy conf lines' := fun pre line hpre => h pre line (hpre.trans hle)

/-- What is in the arrays behind some lines: the last value, and a key that it fits. -/
structure Settled (conf : HttpdConf) (lines : List (List UInt8)) (s : ConfScan) : Prop where
  conf : s.conf = conf.behind lines
  value : s.value = carried lines
  repeats : Repeats s.conf s.key s.value

/-- **One line.** -/
theorem Settled.step {s : ConfScan} (hs : Settled conf lines s) (h : Harmless conf lines line) :
    ∃ s', s.line line = .ok s' ∧ Settled conf (lines ++ [line]) s' ∧
      s.conf.own line = .ok s'.conf := by
  cases hscan : scanLine line with
  | none =>
    have hnot : ∀ key value, scanLine line ≠ .both key value := by simp [hscan]
    refine ⟨⟨s.conf, s.key, s.value⟩, line_ok_iff.mpr ⟨by rw [sscanf, hscan],
      assign_self_iff.mpr hs.repeats⟩, ⟨?_, ?_, hs.repeats⟩, by rw [HttpdConf.own, hscan]⟩
    · rw [behind_snoc_of_not hnot]
      exact hs.conf
    · rw [carried_snoc_of_not hnot]
      exact hs.value
  | key key =>
    have hnot : ∀ key value, scanLine line ≠ .both key value := by simp [hscan]
    have hrepeats : Repeats s.conf key s.value := by
      rw [hs.conf, hs.value]
      exact h.key key hscan
    refine ⟨⟨s.conf, key, s.value⟩, line_ok_iff.mpr ⟨by rw [sscanf, hscan],
      assign_self_iff.mpr hrepeats⟩, ⟨?_, ?_, hrepeats⟩, by rw [HttpdConf.own, hscan]⟩
    · rw [behind_snoc_of_not hnot]
      exact hs.conf
    · rw [carried_snoc_of_not hnot]
      exact hs.value
  | both key value =>
    have hfits : key = bytes "FILE_DIR" → value.length < 50 := by
      rintro rfl
      exact h.short value hscan
    have hassign := @assign_of_fits s.conf _ _ hfits
    refine ⟨⟨s.conf.set key value, key, value⟩, line_ok_iff.mpr ⟨by rw [sscanf, hscan], hassign⟩,
      ⟨?_, (carried_snoc hscan).symm, repeats_set hfits⟩, ?_⟩
    · rw [behind_snoc hscan, hs.conf]
    · rw [HttpdConf.own, hscan]
      exact hassign

/-- **Any lines** that do no harm. -/
theorem readLines_of_tidy (h : Tidy conf lines) :
    ∃ s, readLines conf lines = .ok s ∧ Settled conf lines s := by
  induction lines using List.reverseRecOn with
  | nil => exact ⟨⟨conf, [], []⟩, rfl, rfl, rfl, repeats_nil conf []⟩
  | append_singleton lines line ih =>
    obtain ⟨s, hs, hsettled⟩ := ih (h.mono (List.prefix_append ..))
    obtain ⟨s', hs', hsettled', -⟩ := hsettled.step (h lines line (List.prefix_refl _))
    refine ⟨s', ?_, hsettled'⟩
    rw [readLines_snoc, hs]
    exact hs'

/-- A line that does what it does by itself does no harm. -/
theorem Settled.harmless {s s' : ConfScan} (hs : Settled conf lines s)
    (hline : s.line line = .ok s') (hown : s.conf.own line = .ok s'.conf) :
    Harmless conf lines line where
  short := by
    intro value hscan
    rw [HttpdConf.own, hscan] at hown
    exact (assign_ok_iff.mp hown).1 rfl
  key := by
    intro key hscan
    rw [HttpdConf.own, hscan] at hown
    obtain ⟨hwords, hassign⟩ := line_ok_iff.mp hline
    rw [sscanf, hscan] at hwords
    obtain ⟨hkey, hvalue⟩ := Prod.mk.inj hwords
    rw [← hkey, ← hvalue, ← Except.ok.inj hown] at hassign
    have hrepeats := assign_self_iff.mp hassign
    rwa [hs.conf, hs.value] at hrepeats

/-- What has been read is read well. -/
theorem readLines_prefix {pre : List (List UInt8)} {r : ConfScan} (hpre : pre <+: lines)
    (h : readLines conf lines = .ok r) : ∃ s, readLines conf pre = .ok s := by
  obtain ⟨post, rfl⟩ := hpre
  unfold readLines at h
  rw [List.foldlM_append] at h
  obtain ⟨s, hs, -⟩ := bind_ok.mp h
  exact ⟨s, hs⟩

theorem tidy_of_own {r : ConfScan} (h : readLines conf lines = .ok r)
    (hown : ∀ pre line, pre ++ [line] <+: lines → ∀ s, readLines conf pre = .ok s →
      (s.line line).map ConfScan.conf = s.conf.own line) : Tidy conf lines := by
  induction lines using List.reverseRecOn generalizing r with
  | nil =>
    intro pre line hpre
    exact absurd (List.prefix_nil.mp hpre) (by simp)
  | append_singleton lines line ih =>
    obtain ⟨s, hs⟩ := readLines_prefix (List.prefix_append ..) h
    have htidy := ih hs fun pre line' hpre => hown pre line' (hpre.trans (List.prefix_append ..))
    intro pre line' hpre
    rcases List.prefix_concat_iff.mp hpre with heq | hpre
    · obtain ⟨rfl, hlast⟩ := List.append_inj' heq rfl
      obtain rfl := List.singleton_inj.mp hlast
      obtain ⟨s', hs', hsettled⟩ := readLines_of_tidy htidy
      cases hs'.symm.trans hs
      rw [readLines_snoc, hs] at h
      have hline := hown pre line' (List.prefix_refl _) s hs
      rw [show s.line line' = .ok r from h] at hline
      exact hsettled.harmless h hline.symm
    · exact htidy pre line' hpre

end

-- ---------------------------------------------------------------------------
-- The lines of a file
-- ---------------------------------------------------------------------------

/-- Every line has fewer than 127 bytes before its newline. -/
def ShortLines (file : List UInt8) : Prop :=
  ∀ line ∈ fileLines file, (line.takeWhile fun b => b ≠ lf).length < 127

instance (file : List UInt8) : Decidable (ShortLines file) :=
  inferInstanceAs (Decidable (∀ line ∈ fileLines file, _))

/-- What has been read of a line is in a line of the file. -/
theorem exists_lineFrom {line : List UInt8} (h : line ≠ []) (file : List UInt8) :
    ∃ l ∈ linesFrom line file, line <+: l := by
  induction file generalizing line with
  | nil =>
    rw [linesFrom, if_neg h]
    exact ⟨line, List.mem_singleton_self line, List.prefix_refl line⟩
  | cons c file ih =>
    unfold linesFrom
    split
    · exact ⟨line ++ [c], List.mem_cons_self .., List.prefix_append ..⟩
    · obtain ⟨l, hl, hpre⟩ := ih (show line ++ [c] ≠ [] by simp)
      exact ⟨l, hl, (List.prefix_append ..).trans hpre⟩

/-- `fgets` reads short lines whole. -/
theorem fgetsConf_eq {room : Nat} {line file : List UInt8} (hroom : line.length + room = 127)
    (hpos : 1 ≤ room) (hline : ∀ b ∈ line, b ≠ lf)
    (hshort : ∀ l ∈ linesFrom line file, (l.takeWhile fun b => b ≠ lf).length < 127) :
    fgetsConf room line file = linesFrom line file := by
  induction file generalizing room line with
  | nil => rfl
  | cons c file ih =>
    unfold fgetsConf linesFrom
    unfold linesFrom at hshort
    by_cases hc : c = lf
    · rw [if_pos hc] at hshort
      rw [if_pos (.inl hc), if_pos hc]
      refine congrArg _ (ih rfl (by decide) (by simp) ?_)
      exact fun l hl => hshort l (List.mem_cons_of_mem _ hl)
    · rw [if_neg hc] at hshort
      have hline' : ∀ b ∈ line ++ [c], b ≠ lf := by
        intro b hb
        rcases List.mem_append.mp hb with hb | hb
        · exact hline b hb
        · rw [List.mem_singleton.mp hb]
          exact hc
      have hne : room ≠ 1 := by
        rintro rfl
        -- the line goes on behind the byte that would fill `buf`
        obtain ⟨l, hl, ⟨rest, rfl⟩⟩ := exists_lineFrom (show line ++ [c] ≠ [] by simp) file
        have hlen := hshort _ hl
        rw [List.takeWhile_append_of_pos fun b hb => decide_eq_true (hline' b hb),
          List.length_append, List.length_append, List.length_singleton] at hlen
        omega
      rw [if_neg (by simp [hc, hne]), if_neg hc]
      refine ih ?_ (by omega) hline' hshort
      rw [List.length_append, List.length_singleton]
      omega

/-- **Every line counts for itself** exactly if no line does harm. -/
theorem lineLocal_iff {conf : HttpdConf} {file : List UInt8} (h : ShortLines file) :
    LineLocal conf file ↔ Tidy conf (fileLines file) := by
  have hfgets : fgetsConf 127 [] file = fileLines file :=
    fgetsConf_eq rfl (by decide) (by simp) h
  constructor
  · intro hlocal
    have hends := hlocal.ends
    rw [initConf, hfgets] at hends
    obtain ⟨r, hr, -⟩ := map_ok.mp hends
    exact tidy_of_own hr hlocal.own
  · intro htidy
    constructor
    · obtain ⟨s, hs, hsettled⟩ := readLines_of_tidy htidy
      rw [initConf, hfgets, hs, ← hsettled.conf]
      rfl
    · intro pre line hpre s hs
      obtain ⟨s', hs', hsettled⟩ :=
        readLines_of_tidy (htidy.mono ((List.prefix_append ..).trans hpre))
      cases hs'.symm.trans hs
      obtain ⟨t, ht, -, hown⟩ := hsettled.step (htidy pre line hpre)
      rw [ht, hown]
      rfl

/-- No key without a value, and no directory that does not fit. -/
def Scanned.complete : Scanned → Bool
  | .none => true
  | .key _ => false
  | .both k value => k ≠ bytes "FILE_DIR" || value.length < 50

theorem tidy_of_complete (conf : HttpdConf) {lines : List (List UInt8)}
    (h : ∀ line ∈ lines, (scanLine line).complete = true) : Tidy conf lines := by
  intro pre line hpre
  have hcomplete := h line (hpre.subset (List.mem_append_right _ (List.mem_singleton_self _)))
  constructor
  · intro value hscan
    rw [hscan] at hcomplete
    simpa [Scanned.complete] using hcomplete
  · intro key hscan
    rw [hscan] at hcomplete
    cases hcomplete

/-- The file of the repository, which ends with an empty line. -/
def httpdConf : List UInt8 :=
  bytes "PORT 12345\nTHREAD_NUM 4\nLISTEN_NUM 10240\nFILE_DIR ../doc\nEVENT_LIST 2048\n\n"

/-- A `conf` that nothing has been assigned to. -/
def zeroConf : HttpdConf := ⟨0, 0, 0, [], 0⟩

theorem lineLocal_httpdConf : LineLocal zeroConf httpdConf :=
  (lineLocal_iff (by decide +kernel)).mpr (tidy_of_complete zeroConf (by decide +kernel))

example : initConf zeroConf httpdConf = .ok ⟨12345, 10240, 4, bytes "../doc", 2048⟩ := by
  decide +kernel

/-- A key without a value gets the one of the line before. -/
theorem not_lineLocal : ¬ ∀ conf file, ShortLines file → LineLocal conf file := by
  intro hall
  have hlocal := hall zeroConf (bytes "PORT 80\nTHREAD_NUM\n") (by decide +kernel)
  have hends := hlocal.ends
  have hrun : initConf zeroConf (bytes "PORT 80\nTHREAD_NUM\n") = .ok ⟨80, 0, 80, [], 0⟩ := by
    decide +kernel
  have hspec : zeroConf.behind (fileLines (bytes "PORT 80\nTHREAD_NUM\n")) = ⟨80, 0, 0, [], 0⟩ := by
    decide +kernel
  rw [hrun, hspec] at hends
  exact absurd hends (by decide)

-- ---------------------------------------------------------------------------
-- What is stored
-- ---------------------------------------------------------------------------

theorem scanWord_some {s word rest : List UInt8} (h : scanWord s = some (word, rest)) :
    word <:+: s ∧ rest <:+: s := by
  unfold scanWord at h
  dsimp only at h
  split at h
  · cases h
  · obtain ⟨rfl, rfl⟩ := Prod.mk.inj (Option.some.inj h)
    have hs : s.dropWhile isSpace <:+: s := (List.dropWhile_suffix _).isInfix
    exact ⟨(List.takeWhile_prefix _).isInfix.trans hs, (List.dropWhile_suffix _).isInfix.trans hs⟩

/-- The words that are stored are in the string of the line. -/
theorem sscanf_infix {buf key value key' value' : List UInt8}
    (h : sscanf buf key value = (key', value')) :
    (key' = key ∨ key' <:+: asString buf) ∧ (value' = value ∨ value' <:+: asString buf) := by
  unfold sscanf scanLine at h
  cases hfirst : scanWord (asString buf) with
  | none =>
    rw [hfirst] at h
    cases h
    exact ⟨.inl rfl, .inl rfl⟩
  | some first =>
    obtain ⟨word, rest⟩ := first
    obtain ⟨hword, hrest⟩ := scanWord_some hfirst
    cases hsecond : scanWord rest with
    | none =>
      simp only [hfirst, hsecond] at h
      cases h
      exact ⟨.inr hword, .inl rfl⟩
    | some second =>
      obtain ⟨word', rest'⟩ := second
      simp only [hfirst, hsecond] at h
      cases h
      exact ⟨.inr hword, .inr ((scanWord_some hsecond).1.trans hrest)⟩

/-- The arrays and `doc` hold strings that fit them. -/
structure Stored (s : ConfScan) : Prop where
  key : s.key.length < 128
  value : s.value.length < 128
  nonzero : ∀ b ∈ s.value, b ≠ 0
  doc : s.conf.doc.length < 50 ∧ ∀ b ∈ s.conf.doc, b ≠ 0

/-- What `fgets` reads fits `buf`. -/
theorem length_fgetsConf {room : Nat} {line file : List UInt8} (hroom : line.length + room = 127)
    (hpos : 1 ≤ room) : ∀ buf ∈ fgetsConf room line file, buf.length < 128 := by
  induction file generalizing room line with
  | nil =>
    intro buf hbuf
    unfold fgetsConf at hbuf
    split at hbuf
    · cases hbuf
    · rw [List.mem_singleton.mp hbuf]
      omega
  | cons c file ih =>
    intro buf hbuf
    unfold fgetsConf at hbuf
    split at hbuf
    · rcases List.mem_cons.mp hbuf with rfl | hbuf
      · rw [List.length_append, List.length_singleton]
        omega
      · exact ih rfl (by decide) buf hbuf
    · rename_i hgoes
      have hne : room ≠ 1 := fun h => hgoes (.inr h)
      refine ih ?_ (by omega) buf hbuf
      rw [List.length_append, List.length_singleton]
      omega

theorem Stored.line {s s' : ConfScan} {buf : List UInt8} (hs : Stored s) (hbuf : buf.length < 128)
    (h : s.line buf = .ok s') : Stored s' := by
  obtain ⟨hscan, hassign⟩ := line_ok_iff.mp h
  obtain ⟨hkey, hvalue⟩ := sscanf_infix hscan
  obtain ⟨hfits, hset⟩ := assign_ok_iff.mp hassign
  have hstring : (asString buf).length < 128 :=
    Nat.lt_of_le_of_lt (List.takeWhile_prefix _).length_le hbuf
  have hnonzero : ∀ b ∈ s'.value, b ≠ 0 := by
    rcases hvalue with hvalue | hvalue
    · rw [hvalue]
      exact hs.nonzero
    · intro b hb
      simpa using List.mem_takeWhile_imp (hvalue.subset hb)
  refine ⟨?_, ?_, hnonzero, ?_⟩
  · rcases hkey with hkey | hkey
    · rw [hkey]
      exact hs.key
    · exact Nat.lt_of_le_of_lt hkey.length_le hstring
  · rcases hvalue with hvalue | hvalue
    · rw [hvalue]
      exact hs.value
    · exact Nat.lt_of_le_of_lt hvalue.length_le hstring
  · rw [hset]
    by_cases hdir : s'.key = bytes "FILE_DIR"
    · simp only [HttpdConf.set, hdir, if_true]
      exact ⟨hfits hdir, hnonzero⟩
    · simp only [HttpdConf.set, hdir, if_false]
      exact hs.doc

theorem Stored.lines {s s' : ConfScan} {lines : List (List UInt8)} (hs : Stored s)
    (hbuf : ∀ buf ∈ lines, buf.length < 128) (h : lines.foldlM ConfScan.line s = .ok s') :
    Stored s' := by
  induction lines generalizing s with
  | nil =>
    cases h
    exact hs
  | cons buf lines ih =>
    obtain ⟨t, ht, h⟩ := bind_ok.mp h
    exact ih (hs.line (hbuf buf (List.mem_cons_self ..)) ht)
      (fun b hb => hbuf b (List.mem_cons_of_mem _ hb)) h

/-- `send_http` finds a string in `doc`, if there was one before. -/
theorem initConf_doc {conf conf' : HttpdConf} {file : List UInt8} (hlen : conf.doc.length < 50)
    (hnonzero : ∀ b ∈ conf.doc, b ≠ 0) (h : initConf conf file = .ok conf') :
    ∃ c : ConfHttp, c.doc = conf'.doc := by
  obtain ⟨s, hs, rfl⟩ := map_ok.mp h
  have hempty : ([] : List UInt8).length < 128 := by decide
  have hinit : Stored ⟨conf, [], []⟩ := ⟨hempty, hempty, by simp, hlen, hnonzero⟩
  have hdoc := (hinit.lines (length_fgetsConf rfl (by decide)) hs).doc
  exact ⟨⟨s.conf.doc, hdoc.2, hdoc.1⟩, rfl⟩

end TinyHTTP.Version02
