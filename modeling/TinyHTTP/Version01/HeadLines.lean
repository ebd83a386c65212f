import TinyHTTP.Version01.ServeRequest

/-!
# TinyHTTP — version_01: the lines of the head

`get_line` reads at most 1023 bytes, so a long line comes in pieces, and it sees
`\r\n` only where both are in one piece. `nextLine` is what it makes of the input,
and `skipHead` what the loops over it leave.

* `getLine_nextLine` — `get_line` computes `nextLine`.
* `discardHeaders_rest`, `postHeaders_rest` — the loops leave what `skipHead` leaves.
* `skipHead_line` — one line of the head, by its length.
* `drains_iff` — the loops stop at the blank line when no line has a length that
  separates `\r\n` from it.
-/

namespace TinyHTTP.Version01

open TinyHTTP.Lib
open TinyHTTP.Http (asString cr lf)

/-- `\r\n` at the end becomes `\n`. -/
def foldNewline (line : List UInt8) : List UInt8 :=
  if line.drop (line.length - 2) = [cr, lf] then line.take (line.length - 2) ++ [lf] else line

/-- The line that `get_line` reads into a buffer of 1024 bytes, and what stays in the socket;
`none`: it looks at the byte before the buffer. -/
def nextLine (input : List UInt8) : Option (List UInt8 × List UInt8) :=
  let (line, rest) := getLineLoop (bufSize - 1) input
  if line = [] ∨ line = [lf] then none else some (foldNewline line, rest)

/-- The buffer holds a line and a NUL behind it. -/
structure HoldsLine (buf : Mem) (text : List UInt8) : Prop where
  byte : ∀ k (hk : k < text.length), buf k = text[k]
  nul : buf text.length = 0

/-- The result of a computation that fails only by an access out of bounds. -/
def inBounds {α : Type} : Option α → Except Fault α
  | none => .error .outOfBounds
  | some a => .ok a

-- ---------------------------------------------------------------------------
-- One line
-- ---------------------------------------------------------------------------

theorem getLineLoop_length (room : Nat) (input : List UInt8) :
    (getLineLoop room input).1.length ≤ room := by
  induction room generalizing input with
  | zero => exact Nat.le_refl _
  | succ room ih =>
    cases input with
    | nil => exact Nat.zero_le _
    | cons c input =>
      unfold getLineLoop
      split
      · exact Nat.succ_le_succ (Nat.zero_le _)
      · exact Nat.succ_le_succ (ih input)

/-- A line that begins with a newline is no longer. -/
theorem getLineLoop_head {room : Nat} {input : List UInt8}
    (h : (getLineLoop room input).1.head? = some lf) : (getLineLoop room input).1 = [lf] := by
  cases room with
  | zero => cases h
  | succ room =>
    cases input with
    | nil => cases h
    | cons c input =>
      unfold getLineLoop at h ⊢
      split at h
      · rename_i hc
        rw [if_pos hc, hc]
      · rename_i hc
        exact absurd (Option.some.inj h) hc

/-- Room for less than the line. -/
theorem getLineLoop_long {line more : List UInt8} (hline : lf ∉ line) {room : Nat}
    (h : room ≤ line.length) :
    getLineLoop room (line ++ more) = (line.take room, line.drop room ++ more) := by
  induction room generalizing line with
  | zero => rfl
  | succ room ih =>
    cases line with
    | nil => cases h
    | cons c line =>
      have hc : ¬ c = lf := fun hc => hline (hc ▸ List.mem_cons_self ..)
      rw [List.cons_append, getLineLoop, if_neg hc,
        ih (fun hlf => hline (List.mem_cons_of_mem _ hlf)) (Nat.le_of_succ_le_succ h)]
      rfl

/-- Room for the line and its newline. -/
theorem getLineLoop_line {line more : List UInt8} (hline : lf ∉ line) {room : Nat}
    (h : line.length < room) :
    getLineLoop room (line ++ lf :: more) = (line ++ [lf], more) := by
  induction room generalizing line with
  | zero => cases h
  | succ room ih =>
    cases line with
    | nil => rfl
    | cons c line =>
      have hc : ¬ c = lf := fun hc => hline (hc ▸ List.mem_cons_self ..)
      rw [List.cons_append, getLineLoop, if_neg hc,
        ih (fun hlf => hline (List.mem_cons_of_mem _ hlf)) (Nat.lt_of_succ_lt_succ h)]
      rfl

theorem foldNewline_crlf (line : List UInt8) :
    foldNewline (line ++ [cr, lf]) = line ++ [lf] := by
  have hlen : (line ++ [cr, lf]).length - 2 = line.length := by simp
  rw [foldNewline, hlen, List.drop_left, if_pos rfl, List.take_left]

theorem foldNewline_of_not_mem {line : List UInt8} (h : lf ∉ line) : foldNewline line = line := by
  refine if_neg fun hdrop => h ?_
  have hmem : lf ∈ line.drop (line.length - 2) := by simp [hdrop]
  exact List.mem_of_mem_drop hmem

theorem foldNewline_ne_nil {line : List UInt8} (h : line ≠ []) : foldNewline line ≠ [] := by
  unfold foldNewline
  split
  · simp
  · exact h

theorem writeBytes_getElem? {m : Mem} {bs : List UInt8} {k : Nat} {b : UInt8}
    (h : bs[k]? = some b) : writeBytes m 0 bs k = b := by
  rw [writeBytes, if_pos (Nat.zero_le k), Nat.sub_zero, h]
  rfl

/-- What was read has `\r\n` at its end: the newline goes to where the `\r` was. -/
theorem getLine_crlf (buf : Mem) {input front rest : List UInt8}
    (h : getLineLoop (bufSize - 1) input = (front ++ [cr, lf], rest)) :
    ∃ buf', getLine buf bufSize input = .ok (buf', front.length + 1, rest) ∧
      HoldsLine buf' (front ++ [lf]) ∧ (buf 1023 = 0 → buf' 1023 = 0) := by
  have hroom := getLineLoop_length (bufSize - 1) input
  rw [h] at hroom
  replace hroom : (front ++ [cr, lf]).length ≤ 1023 := hroom
  rw [List.length_append] at hroom
  replace hroom : front.length + 2 ≤ 1023 := hroom
  have hcr : writeBytes buf 0 (front ++ [cr, lf]) front.length = cr :=
    writeBytes_getElem? (by simp)
  have hlf : writeBytes buf 0 (front ++ [cr, lf]) (front.length + 1) = lf :=
    writeBytes_getElem? (by simp)
  have hlen : (front ++ [cr, lf]).length = front.length + 2 := by simp
  refine ⟨Function.update (Function.update (writeBytes buf 0 (front ++ [cr, lf])) front.length lf)
    (front.length + 1) 0, ?_, ⟨?_, ?_⟩, ?_⟩
  · unfold getLine
    simp only [h, hlen, Nat.add_sub_cancel, Nat.add_one_ne_zero, if_false, hcr, if_true, hlf,
      show front.length + 2 - 1 = front.length + 1 from rfl,
      show ¬ front.length + 2 = 1 by omega]
  · intro k hk
    rw [List.length_append, List.length_singleton] at hk
    rw [Function.update_of_ne (by omega)]
    by_cases hlast : k = front.length
    · subst hlast
      rw [Function.update_self, List.getElem_append_right (Nat.le_refl _)]
      simp
    · rw [Function.update_of_ne hlast, List.getElem_append_left (by omega)]
      refine writeBytes_getElem? ?_
      rw [List.getElem?_append_left (by omega), List.getElem?_eq_getElem]
  · rw [List.length_append]
    exact Function.update_self ..
  · intro hnul
    by_cases hfull : 1023 = front.length + 1
    · omega
    · rw [Function.update_of_ne hfull, Function.update_of_ne (by omega),
        writeBytes_of_ge (by omega)]
      exact hnul

/-- What was read stays as it came. -/
theorem getLine_asis (buf : Mem) {input taken rest : List UInt8}
    (h : getLineLoop (bufSize - 1) input = (taken, rest)) (hnil : taken ≠ []) (hone : taken ≠ [lf])
    (hcrlf : taken.drop (taken.length - 2) ≠ [cr, lf]) :
    ∃ buf', getLine buf bufSize input = .ok (buf', taken.length, rest) ∧
      HoldsLine buf' taken ∧ (buf 1023 = 0 → buf' 1023 = 0) := by
  have hroom := getLineLoop_length (bufSize - 1) input
  rw [h] at hroom
  replace hroom : taken.length ≤ 1023 := hroom
  refine ⟨Function.update (writeBytes buf 0 taken) taken.length 0, ?_,
    ⟨?_, Function.update_self ..⟩, ?_⟩
  · obtain ⟨front, b, rfl⟩ := (List.eq_nil_or_concat' taken).resolve_left hnil
    have hlast : writeBytes buf 0 (front ++ [b]) front.length = b :=
      writeBytes_getElem? (by simp)
    have hlen : (front ++ [b]).length = front.length + 1 := by simp
    unfold getLine
    simp only [h, hlen, Nat.add_sub_cancel, Nat.add_one_ne_zero, if_false, hlast]
    split
    · rename_i hlf
      rcases List.eq_nil_or_concat' front with rfl | ⟨front', c, rfl⟩
      · exact absurd (by rw [hlf]; rfl) hone
      · have hlen' : (front' ++ [c]).length = front'.length + 1 := by simp
        have hprev : writeBytes buf 0 (front' ++ [c] ++ [b]) front'.length = c :=
          writeBytes_getElem? (by simp)
        have hne : ¬ c = cr := by
          rintro rfl
          refine hcrlf ?_
          rw [hlf]
          simp
        simp only [hlen', show ¬ front'.length + 1 + 1 = 1 by omega, if_false,
          show front'.length + 1 + 1 - 2 = front'.length by omega, hprev, hne]
    · rfl
  · intro k hk
    rw [Function.update_of_ne (by omega)]
    exact writeBytes_getElem? (List.getElem?_eq_getElem hk)
  · intro hnul
    by_cases hfull : 1023 = taken.length
    · rw [← hfull]
      exact Function.update_self ..
    · rw [Function.update_of_ne hfull, writeBytes_of_ge (by omega)]
      exact hnul

/-- `get_line` with a buffer of 1024 bytes. The last byte of the buffer stays a NUL. -/
theorem getLine_nextLine (buf : Mem) (input : List UInt8) :
    match nextLine input with
    | none => getLine buf bufSize input = .error .outOfBounds
    | some (text, rest) => ∃ buf', getLine buf bufSize input = .ok (buf', text.length, rest) ∧
        HoldsLine buf' text ∧ (buf 1023 = 0 → buf' 1023 = 0) := by
  unfold nextLine
  cases hloop : getLineLoop (bufSize - 1) input with
  | mk taken rest =>
    simp only
    by_cases hnil : taken = []
    · subst hnil
      rw [if_pos (.inl rfl)]
      simp only [getLine, hloop, List.length_nil, if_true]
    by_cases hone : taken = [lf]
    · subst hone
      have hlf : writeBytes buf 0 [lf] 0 = lf := rfl
      rw [if_pos (.inr rfl)]
      simp [getLine, hloop, hlf]
    rw [if_neg (by simp [hnil, hone])]
    by_cases hcrlf : taken.drop (taken.length - 2) = [cr, lf]
    · have hsplit := List.take_append_drop (taken.length - 2) taken
      rw [hcrlf] at hsplit
      rw [← hsplit] at hloop
      obtain ⟨buf', hok, hline⟩ := getLine_crlf buf hloop
      refine ⟨buf', ?_, ?_⟩
      · rw [foldNewline, if_pos hcrlf, List.length_append]
        exact hok
      · rw [foldNewline, if_pos hcrlf]
        exact hline
    · rw [foldNewline, if_neg hcrlf]
      exact getLine_asis buf hloop hnil hone hcrlf

/-- What `get_line` returns is not empty, and only the blank line begins with a newline. -/
theorem nextLine_spec {input text rest : List UInt8} (h : nextLine input = some (text, rest)) :
    text ≠ [] ∧ (text.head? = some lf → text = [lf]) ∧ rest.length < input.length := by
  have hlong := congrArg List.length (getLineLoop_append (bufSize - 1) input)
  have hhead := @getLineLoop_head (bufSize - 1) input
  unfold nextLine at h
  generalize getLineLoop (bufSize - 1) input = r at h hlong hhead
  obtain ⟨taken, left⟩ := r
  simp only at h hlong hhead
  split at h
  · cases h
  rename_i hcond
  obtain ⟨hnil, hone⟩ := not_or.mp hcond
  cases h
  have hpos := List.length_pos_iff.mpr hnil
  rw [List.length_append] at hlong
  refine ⟨foldNewline_ne_nil hnil, ?_, by omega⟩
  unfold foldNewline
  split
  · rename_i hcrlf
    intro hfirst
    cases hfront : taken.take (taken.length - 2) with
    | nil => rfl
    | cons b front =>
      rw [hfront] at hfirst
      obtain rfl : b = lf := Option.some.inj hfirst
      refine absurd (hhead ?_) hone
      rw [← List.take_append_drop (taken.length - 2) taken, hfront]
      rfl
  · exact fun hfirst => absurd (hhead hfirst) hone

theorem HoldsLine.isBlank_iff {buf : Mem} {text : List UInt8} (h : HoldsLine buf text)
    (hnil : text ≠ []) (hhead : text.head? = some lf → text = [lf]) :
    isBlank buf = decide (text = [lf]) := by
  cases text with
  | nil => exact absurd rfl hnil
  | cons b text =>
    have hfirst : buf 0 = b := h.byte 0 (Nat.zero_lt_succ _)
    by_cases hb : b = lf
    · subst hb
      obtain rfl : text = [] := (List.cons.inj (hhead rfl)).2
      have hnul : buf 1 = 0 := h.nul
      simp [isBlank, hfirst, hnul]
    · simp [isBlank, hfirst, hb]

-- ---------------------------------------------------------------------------
-- The loops over the head
-- ---------------------------------------------------------------------------

/-- What stays in the socket behind the blank line. -/
def skipHead (input : List UInt8) : Option (List UInt8) :=
  match _h : nextLine input with
  | none => none
  | some (text, rest) => if text = [lf] then some rest else skipHead rest
termination_by input.length
decreasing_by exact (nextLine_spec _h).2.2

theorem skipHead_none {input : List UInt8} (h : nextLine input = none) : skipHead input = none := by
  rw [skipHead]
  split
  · rfl
  · rename_i hnext
    rw [h] at hnext
    cases hnext

theorem skipHead_some {input text rest : List UInt8} (h : nextLine input = some (text, rest)) :
    skipHead input = if text = [lf] then some rest else skipHead rest := by
  rw [skipHead]
  split
  · rename_i hnext
    rw [h] at hnext
    cases hnext
  · rename_i hnext
    rw [h] at hnext
    cases hnext
    rfl

/-- The line just read is not the blank one: the loop goes on. -/
def Goes (buf : Mem) (numchars : Nat) : Prop := 0 < numchars ∧ isBlank buf = false

/-- `get_line` and the test of the loop. -/
theorem getLine_goes (buf : Mem) (input : List UInt8) :
    match nextLine input with
    | none => getLine buf bufSize input = .error .outOfBounds
    | some (text, rest) => ∃ buf', getLine buf bufSize input = .ok (buf', text.length, rest) ∧
        (Goes buf' text.length ↔ text ≠ [lf]) ∧ (buf 1023 = 0 → buf' 1023 = 0) := by
  have hline := getLine_nextLine buf input
  cases hnext : nextLine input with
  | none =>
    rw [hnext] at hline
    exact hline
  | some r =>
    obtain ⟨text, rest⟩ := r
    rw [hnext] at hline
    obtain ⟨buf', hok, hholds, hnul⟩ := hline
    obtain ⟨hnil, hhead, -⟩ := nextLine_spec hnext
    refine ⟨buf', hok, ?_, hnul⟩
    simp [Goes, hholds.isBlank_iff hnil hhead, List.length_pos_iff.mpr hnil]

theorem discardHeaders_stop {buf : Mem} {numchars : Nat} (hstop : ¬ Goes buf numchars)
    (input : List UInt8) : discardHeaders buf numchars input = .ok ([], input) := by
  rw [discardHeaders]
  exact if_neg hstop

theorem postHeaders_stop {buf : Mem} {numchars : Nat} (hstop : ¬ Goes buf numchars)
    (contentLength : Int) (input : List UInt8) :
    postHeaders buf numchars contentLength input = .ok ([], contentLength, input) := by
  rw [postHeaders]
  exact if_neg hstop

theorem discardHeaders_go {buf buf' : Mem} {numchars numchars' : Nat} {input rest : List UInt8}
    (hgoes : Goes buf numchars) (hline : getLine buf bufSize input = .ok (buf', numchars', rest)) :
    discardHeaders buf numchars input =
      (discardHeaders buf' numchars' rest).map fun r => (.getLine :: r.1, r.2) := by
  have hcond : 0 < numchars ∧ isBlank buf = false := hgoes
  rw [discardHeaders, if_pos hcond]
  split
  · rename_i h
    rw [hline] at h
    cases h
  · rename_i h
    rw [hline] at h
    cases h
    rfl

/-- The loop of `server_file`, `execute_cgi` and `accept_request`. -/
theorem discardHeaders_rest {buf : Mem} {numchars : Nat} (hgoes : Goes buf numchars)
    (input : List UInt8) :
    (discardHeaders buf numchars input).map Prod.snd = inBounds (skipHead input) := by
  induction hn : input.length using Nat.strong_induction_on generalizing buf numchars input with
  | _ n ih =>
    have hline := getLine_goes buf input
    cases hnext : nextLine input with
    | none =>
      rw [hnext] at hline
      rw [skipHead_none hnext, discardHeaders,
        if_pos (show 0 < numchars ∧ isBlank buf = false from hgoes)]
      split
      · rename_i h
        rw [hline] at h
        cases h
        rfl
      · rename_i h
        rw [hline] at h
        cases h
    | some r =>
      obtain ⟨text, rest⟩ := r
      rw [hnext] at hline
      obtain ⟨buf', hok, hgoes', -⟩ := hline
      have hshort := (nextLine_spec hnext).2.2
      rw [skipHead_some hnext, discardHeaders_go hgoes hok]
      by_cases hblank : text = [lf]
      · rw [if_pos hblank, discardHeaders_stop fun hg => hgoes'.mp hg hblank]
        rfl
      · rw [if_neg hblank, ← ih _ (by omega) (hgoes'.mpr hblank) rest rfl]
        cases discardHeaders buf' text.length rest <;> rfl

/-- `atoi` finds an end of the string. -/
theorem headerLine_ok {buf : Mem} (hnul : buf 1023 = 0) (contentLength : Int) :
    ∃ buf' contentLength', headerLine buf contentLength = .ok (buf', contentLength') ∧
      buf' 1023 = 0 := by
  have hlast : Function.update buf 15 0 1023 = 0 := by
    rw [Function.update_of_ne (by decide)]
    exact hnul
  obtain ⟨name, hname, hlen⟩ := exists_string (i := 0) (j := 1023) (by omega) hlast
  obtain ⟨value, hvalue, hvlen⟩ := exists_string (i := 16) (j := 1023) (by omega) hlast
  have hcstring : cstring (Function.update buf 15 0) bufSize 0 = .ok name :=
    cstring_string hname (by unfold bufSize; omega)
  have hatoi : atoi (Function.update buf 15 0) bufSize 16 = .ok (toInt32 (atolList value)) := by
    rw [atoi, atol_string hvalue (by unfold bufSize; omega)]
    rfl
  unfold headerLine
  simp only [hcstring, hatoi, bind, Except.bind, pure, Except.pure]
  split
  · exact ⟨_, _, rfl, hlast⟩
  · exact ⟨_, _, rfl, hlast⟩

theorem postHeaders_go {buf buf₁ buf' : Mem} {numchars numchars' : Nat}
    {contentLength contentLength' : Int} {input rest : List UInt8} (hgoes : Goes buf numchars)
    (hheader : headerLine buf contentLength = .ok (buf₁, contentLength'))
    (hline : getLine buf₁ bufSize input = .ok (buf', numchars', rest)) :
    postHeaders buf numchars contentLength input =
      (postHeaders buf' numchars' contentLength' rest).map fun r => (.getLine :: r.1, r.2) := by
  have hcond : 0 < numchars ∧ isBlank buf = false := hgoes
  rw [postHeaders, if_pos hcond]
  simp only [hheader]
  split
  · rename_i h
    rw [hline] at h
    cases h
  · rename_i h
    rw [hline] at h
    cases h
    rfl

/-- The loop of `execute_cgi` for `POST`. -/
theorem postHeaders_rest {buf : Mem} {numchars : Nat} (hgoes : Goes buf numchars)
    (hnul : buf 1023 = 0) (contentLength : Int) (input : List UInt8) :
    (postHeaders buf numchars contentLength input).map (fun r => r.2.2) =
      inBounds (skipHead input) := by
  induction hn : input.length using Nat.strong_induction_on
    generalizing buf numchars contentLength input with
  | _ n ih =>
    obtain ⟨buf₁, length₁, hheader, hnul₁⟩ := headerLine_ok hnul contentLength
    have hline := getLine_goes buf₁ input
    cases hnext : nextLine input with
    | none =>
      rw [hnext] at hline
      rw [skipHead_none hnext, postHeaders,
        if_pos (show 0 < numchars ∧ isBlank buf = false from hgoes)]
      simp only [hheader]
      split
      · rename_i h
        rw [hline] at h
        cases h
        rfl
      · rename_i h
        rw [hline] at h
        cases h
    | some r =>
      obtain ⟨text, rest⟩ := r
      rw [hnext] at hline
      obtain ⟨buf', hok, hgoes', hnul'⟩ := hline
      have hshort := (nextLine_spec hnext).2.2
      rw [skipHead_some hnext, postHeaders_go hgoes hheader hok]
      by_cases hblank : text = [lf]
      · rw [if_pos hblank, postHeaders_stop fun hg => hgoes'.mp hg hblank]
        rfl
      · rw [if_neg hblank, ← ih _ (by omega) (hgoes'.mpr hblank) (hnul' hnul₁) length₁ rest rfl]
        cases postHeaders buf' text.length length₁ rest <;> rfl

-- ---------------------------------------------------------------------------
-- The head
-- ---------------------------------------------------------------------------

/-- A piece without its newline. -/
theorem skipHead_piece {line : List UInt8} (hline : lf ∉ line) (hlen : bufSize - 1 ≤ line.length)
    (more : List UInt8) : skipHead (line ++ more) = skipHead (line.drop (bufSize - 1) ++ more) := by
  have hpiece : lf ∉ line.take (bufSize - 1) := fun hlf => hline (List.mem_of_mem_take hlf)
  have hnil : line.take (bufSize - 1) ≠ [] := by
    intro hnil
    have htake := congrArg List.length hnil
    rw [List.length_take, Nat.min_eq_left hlen] at htake
    cases htake
  have hone : line.take (bufSize - 1) ≠ [lf] := by
    intro hone
    exact hpiece (hone ▸ List.mem_singleton_self lf)
  have hnext : nextLine (line ++ more) =
      some (line.take (bufSize - 1), line.drop (bufSize - 1) ++ more) := by
    rw [nextLine, getLineLoop_long hline hlen]
    simp only [hnil, hone, or_self, if_false, foldNewline_of_not_mem hpiece]
  rw [skipHead_some hnext, if_neg hone]

/-- A line and its `\r\n` in one piece. -/
theorem nextLine_line {line : List UInt8} (hline : lf ∉ line) (hlen : line.length < 1022)
    (more : List UInt8) : nextLine (line ++ cr :: lf :: more) = some (line ++ [lf], more) := by
  have hpiece : lf ∉ line ++ [cr] := by
    simp only [List.mem_append, List.mem_singleton, not_or]
    exact ⟨hline, by decide⟩
  have htaken : getLineLoop (bufSize - 1) (line ++ cr :: lf :: more) =
      (line ++ [cr, lf], more) := by
    have hroom : (line ++ [cr]).length < bufSize - 1 := by
      rw [List.length_append, List.length_singleton]
      unfold bufSize
      omega
    have hloop := @getLineLoop_line (line ++ [cr]) more hpiece _ hroom
    simpa using hloop
  have htwo : ¬ (line ++ [cr, lf] = [] ∨ line ++ [cr, lf] = [lf]) := by
    rintro (he | he)
    · simp at he
    · have hlen := congrArg List.length he
      simp at hlen
  rw [nextLine, htaken]
  simp only [if_neg htwo, foldNewline_crlf]

/-- One line of the head. -/
theorem skipHead_line {line : List UInt8} (hline : lf ∉ line) (more : List UInt8) :
    skipHead (line ++ cr :: lf :: more) =
      if line.length % 1023 = 1022 then none
      else if line.length % 1023 = 0 then some more
      else skipHead more := by
  induction hn : line.length using Nat.strong_induction_on generalizing line with
  | _ n ih =>
    have hsplit : line ++ cr :: lf :: more = (line ++ [cr]) ++ lf :: more := by simp
    have hpiece : lf ∉ line ++ [cr] := by
      simp only [List.mem_append, List.mem_singleton, not_or]
      exact ⟨hline, by decide⟩
    have hlen : (line ++ [cr]).length = n + 1 := by simp [hn]
    rcases Nat.lt_trichotomy n 1022 with hshort | rfl | hlong
    · -- the line and its `\r\n` in one piece
      have hnext := nextLine_line hline (by omega) more
      have hmod : n % 1023 = n := Nat.mod_eq_of_lt (by omega)
      rw [skipHead_some hnext, hmod, if_neg (show ¬ n = 1022 by omega)]
      by_cases hzero : n = 0
      · obtain rfl : line = [] := List.length_eq_zero_iff.mp (hn.trans hzero)
        rw [if_pos hzero]
        rfl
      · have hne : line ++ [lf] ≠ [lf] := by
          intro he
          have hlen := congrArg List.length he
          rw [List.length_append, List.length_singleton] at hlen
          omega
        rw [if_neg hne, if_neg hzero]
    · -- the `\r` is the last of its piece, and the `\n` is alone
      have hdrop : (line ++ [cr]).drop (bufSize - 1) = [] :=
        List.drop_eq_nil_of_le (by unfold bufSize; omega)
      rw [hsplit, skipHead_piece hpiece (by unfold bufSize; omega), hdrop, if_pos rfl]
      exact skipHead_none rfl
    · have hdrop : (line ++ [cr]).drop (bufSize - 1) = line.drop (bufSize - 1) ++ [cr] :=
        List.drop_append_of_le_length (by unfold bufSize; omega)
      have hrest : lf ∉ line.drop (bufSize - 1) := fun hlf => hline (List.mem_of_mem_drop hlf)
      have hmod : (n - 1023) % 1023 = n % 1023 := (Nat.mod_eq_sub_mod (by omega)).symm
      have hline' := ih (n - 1023) (by omega) hrest (by rw [List.length_drop, hn]; rfl)
      rw [hsplit, skipHead_piece hpiece (by unfold bufSize; omega), hdrop, List.append_assoc]
      rw [hmod] at hline'
      exact hline'

/-- The lines of a head, and the blank line. -/
def headOf (lines : List (List UInt8)) : List UInt8 :=
  lines.flatMap (fun line => line ++ [cr, lf]) ++ [cr, lf]

/-- `\r` and `\n` of a line of so many bytes are in one piece, with something before them. -/
def Folds (length : Nat) : Prop := length % 1023 ≠ 0 ∧ length % 1023 ≠ 1022

instance (length : Nat) : Decidable (Folds length) := inferInstanceAs (Decidable (_ ∧ _))

theorem headOf_cons (line : List UInt8) (lines : List (List UInt8)) (body : List UInt8) :
    headOf (line :: lines) ++ body = line ++ cr :: lf :: (headOf lines ++ body) := by
  simp [headOf]

theorem skipHead_head {lines : List (List UInt8)}
    (hlines : ∀ line ∈ lines, line ≠ [] ∧ lf ∉ line) (body : List UInt8) :
    skipHead (headOf lines ++ body) = some body ↔ ∀ line ∈ lines, Folds line.length := by
  induction lines with
  | nil =>
    have hblank := @skipHead_line [] List.not_mem_nil body
    exact iff_of_true hblank nofun
  | cons line lines ih =>
    obtain ⟨⟨hne, hline⟩, hlines⟩ := List.forall_mem_cons.mp hlines
    rw [headOf_cons, skipHead_line hline, List.forall_mem_cons, ← ih hlines]
    split
    · rename_i hlast
      exact iff_of_false nofun fun hall => hall.1.2 hlast
    split
    · rename_i hlast hfirst
      refine iff_of_false ?_ fun hall => hall.1.1 hfirst
      -- the rest of the head is still there
      intro heq
      have hlen := congrArg List.length (Option.some.inj heq)
      simp [headOf] at hlen
      omega
    · rename_i hlast hfirst
      exact ⟨fun h => ⟨⟨hfirst, hlast⟩, h⟩, fun h => h.2⟩

-- ---------------------------------------------------------------------------
-- Where the loops stop
-- ---------------------------------------------------------------------------

/-- The loops over the head stop where the body begins. -/
structure Drains (stream body : List UInt8) : Prop where
  /-- in `server_file`, and in `execute_cgi` for `GET` -/
  discard : ∃ calls, discardHeaders initialBuf 1 stream = .ok (calls, body)
  /-- in `accept_request`, which reads the first line before the loop -/
  accept : ∀ garbage, ∃ buf numchars rest calls,
    getLine garbage bufSize stream = .ok (buf, numchars, rest) ∧
      discardHeaders buf numchars rest = .ok (calls, body)
  /-- in `execute_cgi` for `POST` -/
  post : ∃ buf numchars rest calls contentLength,
    getLine initialBuf bufSize stream = .ok (buf, numchars, rest) ∧
      postHeaders buf numchars (-1) rest = .ok (calls, contentLength, body)

theorem inBounds_ok {α : Type} {o : Option α} {a : α} : inBounds o = .ok a ↔ o = some a := by
  cases o <;> simp [inBounds]

theorem discardHeaders_drains {buf : Mem} {numchars : Nat} (hgoes : Goes buf numchars)
    {input rest : List UInt8} (h : skipHead input = some rest) :
    ∃ calls, discardHeaders buf numchars input = .ok (calls, rest) := by
  have hrest := discardHeaders_rest hgoes input
  rw [h] at hrest
  obtain ⟨⟨calls, rest'⟩, hok, rfl⟩ := map_ok.mp hrest
  exact ⟨calls, hok⟩

theorem postHeaders_drains {buf : Mem} {numchars : Nat} (hgoes : Goes buf numchars)
    (hnul : buf 1023 = 0) {contentLength : Int} {input rest : List UInt8}
    (h : skipHead input = some rest) : ∃ calls contentLength',
      postHeaders buf numchars contentLength input = .ok (calls, contentLength', rest) := by
  have hrest := postHeaders_rest hgoes hnul contentLength input
  rw [h] at hrest
  obtain ⟨⟨calls, contentLength', rest'⟩, hok, rfl⟩ := map_ok.mp hrest
  exact ⟨calls, contentLength', hok⟩

/-- The first `get_line` of a head that the loops get through. -/
theorem getLine_first {stream body : List UInt8} (h : skipHead stream = some body) (buf : Mem) :
    ∃ buf' numchars rest, getLine buf bufSize stream = .ok (buf', numchars, rest) ∧
      (buf 1023 = 0 → buf' 1023 = 0) ∧
      (¬ Goes buf' numchars ∧ rest = body ∨ Goes buf' numchars ∧ skipHead rest = some body) := by
  have hline := getLine_goes buf stream
  cases hnext : nextLine stream with
  | none =>
    rw [skipHead_none hnext] at h
    cases h
  | some r =>
    obtain ⟨text, rest⟩ := r
    rw [hnext] at hline
    obtain ⟨buf', hok, hgoes, hnul⟩ := hline
    rw [skipHead_some hnext] at h
    refine ⟨buf', text.length, rest, hok, hnul, ?_⟩
    by_cases hblank : text = [lf]
    · rw [if_pos hblank] at h
      exact .inl ⟨fun hg => hgoes.mp hg hblank, Option.some.inj h⟩
    · rw [if_neg hblank] at h
      exact .inr ⟨hgoes.mpr hblank, h⟩

theorem drains_iff_skipHead {stream body : List UInt8} :
    Drains stream body ↔ skipHead stream = some body := by
  have hgoes : Goes initialBuf 1 := ⟨Nat.zero_lt_one, by decide⟩
  constructor
  · rintro ⟨⟨calls, hok⟩, -, -⟩
    have hrest := discardHeaders_rest hgoes stream
    rw [hok] at hrest
    exact inBounds_ok.mp hrest.symm
  · intro h
    refine ⟨discardHeaders_drains hgoes h, ?_, ?_⟩
    · intro garbage
      obtain ⟨buf, numchars, rest, hok, -, ⟨hstop, rfl⟩ | ⟨hgoes', hskip⟩⟩ :=
        getLine_first h garbage
      · exact ⟨buf, numchars, rest, [], hok, discardHeaders_stop hstop rest⟩
      · obtain ⟨calls, hdrains⟩ := discardHeaders_drains hgoes' hskip
        exact ⟨buf, numchars, rest, calls, hok, hdrains⟩
    · obtain ⟨buf, numchars, rest, hok, hnul, ⟨hstop, rfl⟩ | ⟨hgoes', hskip⟩⟩ :=
        getLine_first h initialBuf
      · exact ⟨buf, numchars, rest, [], -1, hok, postHeaders_stop hstop (-1) rest⟩
      · obtain ⟨calls, contentLength, hdrains⟩ := postHeaders_drains hgoes' (hnul rfl) hskip
        exact ⟨buf, numchars, rest, calls, contentLength, hok, hdrains⟩

/-- **Where the loops over the head stop**: at the body, when no line has a length that leaves
`\r\n`, or `\n`, alone in a piece. -/
theorem drains_iff {lines : List (List UInt8)} (hlines : ∀ line ∈ lines, line ≠ [] ∧ lf ∉ line)
    (body : List UInt8) :
    Drains (headOf lines ++ body) body ↔ ∀ line ∈ lines, Folds line.length := by
  rw [drains_iff_skipHead]
  exact skipHead_head hlines body

theorem drains_iff_host : Drains (headOf [bytes "Host: a", bytes "Accept: b"] ++ bytes "x=1")
    (bytes "x=1") :=
  (drains_iff (by decide) (bytes "x=1")).mpr (by decide)

/-- A line of 1023 bytes: its `\r\n` is taken for the blank line. -/
theorem drains_stops_early : ¬ ∀ (lines : List (List UInt8)) (body : List UInt8),
    (∀ line ∈ lines, line ≠ [] ∧ lf ∉ line) → Drains (headOf lines ++ body) body := by
  intro hall
  have hlf : lf ∉ List.replicate 1023 (97 : UInt8) := by
    rw [List.mem_replicate]
    decide
  have hnil : List.replicate 1023 (97 : UInt8) ≠ [] := by
    refine List.ne_nil_of_length_pos ?_
    rw [List.length_replicate]
    decide
  have hdrains := hall [List.replicate 1023 97] [] fun line hline => by
    rw [List.mem_singleton.mp hline]
    exact ⟨hnil, hlf⟩
  rw [drains_iff_skipHead, headOf_cons, skipHead_line hlf, List.length_replicate] at hdrains
  cases hdrains

end TinyHTTP.Version01
