import TinyHTTP.Lib.Decimal
import TinyHTTP.Version01.HeadLines

/-!
# TinyHTTP — version_01: the input of a script

`execute_cgi` cuts each line of the head of a `POST` request after 15 characters,
compares these with `Content-Length:`, and reads the number from the 17th on. Then it
relays so many bytes of the body, one at a time, whatever `recv` returns.

* `headerLine_line` — one turn of the loop over the head.
* `cgiInput_lines` — what a head of short lines comes to.
* `relay_eq_take_iff` — when the relay hands on the body and nothing else.
* `cgiInput_faithful_iff` — when the script gets the length and the body of the request.
-/

namespace TinyHTTP.Version01

open TinyHTTP.Lib
open TinyHTTP.Http (asString cr lf)

/-- The loop of `recv(client_sock, &c, 1, 0)` and `write(input[1], &c, 1)`: what is written. A
`recv` that fails leaves `c` as it is. -/
def relay : Nat → UInt8 → List UInt8 → List UInt8
  | 0, _, _ => []
  | n + 1, c, [] => c :: relay n c []
  | n + 1, _, b :: input => b :: relay n b input

/-- `execute_cgi` of a `POST` request, whose first line has been read: `content_length`, and what is
written to the script; `none` is `bad_request`. `c` is uninitialised. -/
def cgiInput (c : UInt8) (input : List UInt8) : Except Fault (Option (Int × List UInt8)) := do
  let (buf, numchars, input) ← getLine initialBuf bufSize input
  let (_, contentLength, input) ← postHeaders buf numchars (-1) input
  if contentLength = -1 then return none
  else return some (contentLength, relay contentLength.toNat c input)

/-- The input is that of the script `execute_cgi` runs. -/
theorem executeCgi_cgiInput {sys : System} {r : Request} {c : UInt8} {input : List UInt8}
    {contentLength : Int} {written : List UInt8} (hpost : r.method ≠ bytes "GET")
    (hfork : sys.fork = true) (h : cgiInput c input = .ok (some (contentLength, written))) :
    ∃ head rest, written = relay contentLength.toNat c rest ∧
      executeCgi sys r input = .ok (.getLine :: (head ++ runScript sys r contentLength rest)) := by
  unfold cgiInput at h
  obtain ⟨⟨buf, numchars, rest⟩, hline, h⟩ := bind_ok.mp h
  obtain ⟨⟨head, length, rest'⟩, hhead, h⟩ := bind_ok.mp h
  simp only at h
  split at h
  · cases h
  · rename_i hlength
    cases h
    refine ⟨head, rest', rfl, ?_⟩
    unfold executeCgi
    rw [if_neg hpost]
    simp only [hline, hhead, bind, Except.bind, if_neg hlength, hfork, if_true]
    rfl

-- ---------------------------------------------------------------------------
-- Lines
-- ---------------------------------------------------------------------------

/-- A line of the head that fits into the buffer with its `\r\n` and a NUL. -/
structure HeaderLine (line : List UInt8) : Prop where
  nonempty : line ≠ []
  noLf : lf ∉ line
  short : line.length + 2 < bufSize

/-- What a turn of the loop makes of `content_length`. -/
def lengthOf (contentLength : Int) (line : List UInt8) : Int :=
  if bytes "Content-Length:" <+: line then
    toInt32 (atolList (asString ((line ++ [lf]).drop 16)))
  else contentLength

/-- `Content-Length:` and blanks and digits. -/
def lengthLine (blanks : Nat) (ds : List UInt8) : List UInt8 :=
  bytes "Content-Length:" ++ (List.replicate blanks 32 ++ ds)

theorem HoldsLine.goes {buf : Mem} {line : List UInt8} (h : HoldsLine buf (line ++ [lf]))
    (hline : HeaderLine line) : Goes buf (line ++ [lf]).length := by
  have hhead : (line ++ [lf]).head? = some lf → line ++ [lf] = [lf] := by
    intro hhead
    cases line with
    | nil => rfl
    | cons b line =>
      obtain rfl : b = lf := Option.some.inj hhead
      exact absurd (List.mem_cons_self ..) hline.noLf
  have hne : line ++ [lf] ≠ [lf] := by
    intro he
    exact hline.nonempty (List.append_left_eq_self.mp he)
  refine ⟨by simp, ?_⟩
  rw [h.isBlank_iff (by simp) hhead]
  exact decide_eq_false hne

/-- The string at the front of the buffer, cut after 15 characters. -/
theorem HoldsLine.cut {buf : Mem} {text : List UInt8} (h : HoldsLine buf text) :
    HasString (Function.update buf 15 0) 0 (asString (text.take 15)) := by
  refine hasString_takeWhile ?_ ?_
  · intro k hk
    rw [List.length_take] at hk
    rw [Nat.zero_add, Function.update_of_ne (by omega), h.byte k (by omega), List.getElem_take]
  · rw [List.length_take, Nat.zero_add]
    rcases Nat.le_total 15 text.length with hle | hle
    · rw [Nat.min_eq_left hle]
      exact Function.update_self ..
    · rw [Nat.min_eq_right hle]
      by_cases heq : text.length = 15
      · rw [heq]
        exact Function.update_self ..
      · rw [Function.update_of_ne heq]
        exact h.nul

/-- The string from the 17th character on. -/
theorem HoldsLine.value {buf : Mem} {text : List UInt8} (h : HoldsLine buf text)
    (hlen : 16 ≤ text.length) :
    HasString (Function.update buf 15 0) 16 (asString (text.drop 16)) := by
  refine hasString_takeWhile ?_ ?_
  · intro k hk
    rw [List.length_drop] at hk
    rw [Function.update_of_ne (by omega), h.byte (16 + k) (by omega), List.getElem_drop]
  · rw [List.length_drop, Nat.add_sub_cancel' hlen, Function.update_of_ne (by omega)]
    exact h.nul

theorem asString_length_le (bs : List UInt8) : (asString bs).length ≤ bs.length :=
  (List.takeWhile_prefix _).length_le

/-- The first 15 characters are compared with the name. -/
theorem cut_eq_iff {line : List UInt8} : asString ((line ++ [lf]).take 15) =
    bytes "Content-Length:" ↔ bytes "Content-Length:" <+: line := by
  have hname : (bytes "Content-Length:").length = 15 := by decide
  constructor
  · intro h
    have hall : asString ((line ++ [lf]).take 15) = (line ++ [lf]).take 15 := by
      refine (List.takeWhile_prefix _).eq_of_length_le ?_
      have hlen := congrArg List.length h
      unfold asString at hlen
      rw [hlen, hname, List.length_take]
      exact Nat.min_le_left ..
    rw [hall] at h
    by_cases hlen : 15 ≤ line.length
    · rw [List.take_append_of_le_length hlen] at h
      rw [← h]
      exact List.take_prefix ..
    · -- a newline is no part of the name
      rw [List.take_of_length_le (by simp; omega)] at h
      have hlf : lf ∈ bytes "Content-Length:" := by
        rw [← h]
        exact List.mem_append_right _ (List.mem_singleton_self lf)
      exact absurd hlf (by decide)
  · rintro ⟨rest, rfl⟩
    rw [List.append_assoc, List.take_left' hname]
    decide

/-- One turn of the loop over the head. -/
theorem headerLine_line {buf : Mem} {line : List UInt8} (h : HoldsLine buf (line ++ [lf]))
    (hline : HeaderLine line) (contentLength : Int) :
    headerLine buf contentLength = .ok (Function.update buf 15 0, lengthOf contentLength line) := by
  have hshort := hline.short
  have hname : cstring (Function.update buf 15 0) bufSize 0 =
      .ok (asString ((line ++ [lf]).take 15)) := by
    have hle := asString_length_le ((line ++ [lf]).take 15)
    rw [List.length_take] at hle
    exact cstring_string h.cut (by unfold bufSize; omega)
  unfold headerLine lengthOf
  simp only [hname, bind, Except.bind, pure, Except.pure, cut_eq_iff]
  split
  · rename_i hprefix
    have hlen : 15 ≤ line.length := hprefix.length_le
    have hlong : 16 ≤ (line ++ [lf]).length := by
      rw [List.length_append, List.length_singleton]
      exact Nat.succ_le_succ hlen
    have hle := asString_length_le ((line ++ [lf]).drop 16)
    rw [List.length_drop, List.length_append, List.length_singleton] at hle
    rw [atoi, atol_string (h.value hlong) (by omega)]
    rfl
  · rfl

/-- The loop over the head, from a line that has been read. -/
theorem postHeaders_lines {buf : Mem} {line : List UInt8} (h : HoldsLine buf (line ++ [lf]))
    (hline : HeaderLine line) (contentLength : Int) {lines : List (List UInt8)}
    (hlines : ∀ line ∈ lines, HeaderLine line) (body : List UInt8) :
    ∃ calls, postHeaders buf (line ++ [lf]).length contentLength (headOf lines ++ body) =
      .ok (calls, lines.foldl lengthOf (lengthOf contentLength line), body) := by
  induction lines generalizing buf line contentLength with
  | nil =>
    have hblank : nextLine (headOf [] ++ body) = some ([lf], body) :=
      nextLine_line List.not_mem_nil (by decide) body
    have hread := getLine_goes (Function.update buf 15 0) (headOf [] ++ body)
    rw [hblank] at hread
    obtain ⟨buf', hok, hgoes, -⟩ := hread
    refine ⟨[.getLine], ?_⟩
    rw [postHeaders_go (h.goes hline) (headerLine_line h hline contentLength) hok,
      postHeaders_stop fun hg => hgoes.mp hg rfl]
    rfl
  | cons next lines ih =>
    obtain ⟨hnext, hlines⟩ := List.forall_mem_cons.mp hlines
    have hshort := hnext.short
    have hread := getLine_nextLine (Function.update buf 15 0) (headOf (next :: lines) ++ body)
    rw [headOf_cons, nextLine_line hnext.noLf (by unfold bufSize at hshort; omega)] at hread
    obtain ⟨buf', hok, hholds, -⟩ := hread
    obtain ⟨calls, hrest⟩ := ih hholds hnext (lengthOf contentLength line) hlines
    refine ⟨.getLine :: calls, ?_⟩
    rw [headOf_cons, postHeaders_go (h.goes hline) (headerLine_line h hline contentLength) hok,
      hrest]
    rfl

/-- A head of short lines, and the body. -/
theorem cgiInput_lines (c : UInt8) {lines : List (List UInt8)}
    (hlines : ∀ line ∈ lines, HeaderLine line) (body : List UInt8) :
    cgiInput c (headOf lines ++ body) =
      .ok (if lines.foldl lengthOf (-1) = -1 then none
        else some (lines.foldl lengthOf (-1),
          relay (lines.foldl lengthOf (-1)).toNat c body)) := by
  unfold cgiInput
  cases lines with
  | nil =>
    have hblank : nextLine (headOf [] ++ body) = some ([lf], body) :=
      nextLine_line List.not_mem_nil (by decide) body
    have hread := getLine_goes initialBuf (headOf [] ++ body)
    rw [hblank] at hread
    obtain ⟨buf', hok, hgoes, -⟩ := hread
    simp only [hok, bind, Except.bind, postHeaders_stop fun hg => hgoes.mp hg rfl,
      List.foldl_nil, if_true]
    rfl
  | cons line lines =>
    obtain ⟨hline, hlines⟩ := List.forall_mem_cons.mp hlines
    have hshort := hline.short
    have hread := getLine_nextLine initialBuf (headOf (line :: lines) ++ body)
    rw [headOf_cons, nextLine_line hline.noLf (by unfold bufSize at hshort; omega)] at hread
    obtain ⟨buf', hok, hholds, -⟩ := hread
    obtain ⟨calls, hrest⟩ := postHeaders_lines hholds hline (-1) hlines body
    rw [headOf_cons, hok]
    simp only [bind, Except.bind, hrest, List.foldl_cons]
    by_cases hlength : lines.foldl lengthOf (lengthOf (-1) line) = -1
    · simp only [hlength, if_true]
      rfl
    · simp only [hlength, if_false]
      rfl

-- ---------------------------------------------------------------------------
-- The number
-- ---------------------------------------------------------------------------

theorem foldl_lengthOf_other {lines : List (List UInt8)}
    (h : ∀ line ∈ lines, ¬ bytes "Content-Length:" <+: line) (contentLength : Int) :
    lines.foldl lengthOf contentLength = contentLength := by
  induction lines generalizing contentLength with
  | nil => rfl
  | cons line lines ih =>
    obtain ⟨hline, hlines⟩ := List.forall_mem_cons.mp h
    rw [List.foldl_cons, lengthOf, if_neg hline]
    exact ih hlines contentLength

/-- The digits that are read: the first one is skipped without a blank in front of it. -/
def readDigits (blanks : Nat) (ds : List UInt8) : List UInt8 := if blanks = 0 then ds.drop 1 else ds

/-- Behind the 16th character there are blanks and the digits that are read. -/
theorem drop_lengthLine (blanks : Nat) {ds : List UInt8} (hne : ds ≠ []) :
    (lengthLine blanks ds ++ [lf]).drop 16 =
      List.replicate (blanks - 1) 32 ++ readDigits blanks ds ++ [lf] := by
  have hname : (bytes "Content-Length:").length = 15 := by decide
  have hdrop : (lengthLine blanks ds ++ [lf]).drop 16 =
      (List.replicate blanks 32 ++ ds ++ [lf]).drop 1 := by
    rw [lengthLine, List.append_assoc, ← List.drop_drop (i := 1) (j := 15), List.drop_left' hname]
  rw [hdrop]
  cases blanks with
  | zero =>
    cases ds with
    | nil => exact absurd rfl hne
    | cons b ds => rfl
  | succ blanks => rfl

theorem lengthOf_lengthLine (contentLength : Int) (blanks : Nat) {ds : List UInt8}
    (hne : ds ≠ []) (hds : ∀ b ∈ ds, isDigit b = true) :
    lengthOf contentLength (lengthLine blanks ds) =
      toInt32 (min (decimal (readDigits blanks ds) : Int) (2 ^ 63 - 1)) := by
  have hprefix : bytes "Content-Length:" <+: lengthLine blanks ds := List.prefix_append ..
  have hread : ∀ b ∈ readDigits blanks ds, isDigit b = true := by
    intro b hb
    unfold readDigits at hb
    split at hb
    · exact hds b (List.mem_of_mem_drop hb)
    · exact hds b hb
  have hstring : asString (List.replicate (blanks - 1) 32 ++ readDigits blanks ds ++ [lf]) =
      List.replicate (blanks - 1) 32 ++ readDigits blanks ds ++ [lf] := by
    refine List.takeWhile_eq_self_iff.mpr ?_
    intro b hb
    simp only [List.mem_append, List.mem_singleton] at hb
    rcases hb with (hb | hb) | rfl
    · rw [List.eq_of_mem_replicate hb]
      rfl
    · have hdigit := hread b hb
      refine decide_eq_true ?_
      rintro rfl
      cases hdigit
    · rfl
  rw [lengthOf, if_pos hprefix, drop_lengthLine blanks hne, hstring,
    atolList_digits _ hread rfl fun _ => rfl]
  intro b hb
  rw [List.eq_of_mem_replicate hb]
  rfl

/-- The number that is read is that of the header when it fits an `int` and no digit but a zero is
skipped. -/
theorem readDigits_iff (blanks : Nat) {ds : List UInt8} (hne : ds ≠ [])
    (hds : ∀ b ∈ ds, isDigit b = true) :
    toInt32 (min (decimal (readDigits blanks ds) : Int) (2 ^ 63 - 1)) = decimal ds ↔
      (1 ≤ blanks ∨ ds.head? = some 48) ∧ decimal ds < 2 ^ 31 := by
  have hhigh := toInt32_lt (min (decimal (readDigits blanks ds) : Int) (2 ^ 63 - 1))
  -- what is read is the number, or less
  have hread : decimal (readDigits blanks ds) ≤ decimal ds ∧
      (decimal (readDigits blanks ds) = decimal ds ↔ 1 ≤ blanks ∨ ds.head? = some 48) := by
    unfold readDigits
    split
    · rename_i hblanks
      cases ds with
      | nil => exact absurd rfl hne
      | cons b ds =>
        have hskip := decimal_cons_eq_iff (hds b (List.mem_cons_self ..)) ds
        refine ⟨?_, ?_⟩
        · rw [decimal_cons]
          exact Nat.le_add_left ..
        · rw [List.drop_one, List.tail_cons, hskip]
          simp [hblanks]
    · rename_i hblanks
      exact ⟨Nat.le_refl _, iff_of_true rfl (.inl (by omega))⟩
  generalize decimal (readDigits blanks ds) = m at hread hhigh
  generalize decimal ds = n at hread hhigh
  rw [← hread.2]
  constructor
  · intro h
    rw [h] at hhigh
    have hmod := @toInt32_le (min (m : Int) (2 ^ 63 - 1)) (by omega)
    rw [h] at hmod
    omega
  · rintro ⟨rfl, hlt⟩
    rw [Int.min_eq_left (by omega)]
    exact toInt32_of_lt hlt

-- ---------------------------------------------------------------------------
-- The relay
-- ---------------------------------------------------------------------------

theorem relay_length (n : Nat) (c : UInt8) (input : List UInt8) :
    (relay n c input).length = n := by
  induction n generalizing c input with
  | zero => rfl
  | succ n ih =>
    cases input with
    | nil => exact congrArg Nat.succ (ih c [])
    | cons b input => exact congrArg Nat.succ (ih b input)

theorem relay_of_le {n : Nat} {input : List UInt8} (h : n ≤ input.length) (c : UInt8) :
    relay n c input = input.take n := by
  induction n generalizing c input with
  | zero => rfl
  | succ n ih =>
    cases input with
    | nil => cases h
    | cons b input => exact congrArg (b :: ·) (ih (Nat.le_of_succ_le_succ h) b)

/-- The relay writes as many bytes as it is told, so it writes the body if that has as many. -/
theorem relay_eq_take_iff {n : Nat} {c : UInt8} {input : List UInt8} :
    relay n c input = input.take n ↔ n ≤ input.length := by
  constructor
  · intro h
    have hlen := congrArg List.length h
    rw [relay_length, List.length_take] at hlen
    omega
  · exact fun h => relay_of_le h c

-- ---------------------------------------------------------------------------
-- What the script gets
-- ---------------------------------------------------------------------------

/-- **What the script gets**: the length that the header gives, and the body of that length. -/
theorem cgiInput_faithful_iff {before after : List (List UInt8)} {blanks : Nat} {ds : List UInt8}
    (hbefore : ∀ line ∈ before, HeaderLine line ∧ ¬ bytes "Content-Length:" <+: line)
    (hafter : ∀ line ∈ after, HeaderLine line ∧ ¬ bytes "Content-Length:" <+: line)
    (hlength : HeaderLine (lengthLine blanks ds)) (hne : ds ≠ [])
    (hds : ∀ b ∈ ds, isDigit b = true) (c : UInt8) (body : List UInt8) :
    cgiInput c (headOf (before ++ lengthLine blanks ds :: after) ++ body) =
        .ok (some (decimal ds, body.take (decimal ds))) ↔
      ((1 ≤ blanks ∨ ds.head? = some 48) ∧ decimal ds < 2 ^ 31) ∧ decimal ds ≤ body.length := by
  have hlines : ∀ line ∈ before ++ lengthLine blanks ds :: after, HeaderLine line := by
    intro line hline
    rcases List.mem_append.mp hline with hline | hline
    · exact (hbefore line hline).1
    rcases List.mem_cons.mp hline with rfl | hline
    · exact hlength
    · exact (hafter line hline).1
  have hfold : (before ++ lengthLine blanks ds :: after).foldl lengthOf (-1) =
      toInt32 (min (decimal (readDigits blanks ds) : Int) (2 ^ 63 - 1)) := by
    rw [List.foldl_append, List.foldl_cons,
      foldl_lengthOf_other fun line hline => (hafter line hline).2,
      lengthOf_lengthLine _ blanks hne hds]
  rw [cgiInput_lines c hlines, hfold, ← readDigits_iff blanks hne hds]
  generalize toInt32 (min (decimal (readDigits blanks ds) : Int) (2 ^ 63 - 1)) = n
  constructor
  · intro h
    split at h
    · cases h
    · obtain ⟨rfl, hbody⟩ := Prod.mk.inj (Option.some.inj (Except.ok.inj h))
      exact ⟨rfl, relay_eq_take_iff.mp hbody⟩
  · rintro ⟨rfl, hbody⟩
    rw [if_neg (by omega), Int.toNat_natCast, relay_eq_take_iff.mpr hbody]

theorem headerLine_short : HeaderLine (bytes "Host: a") ∧ HeaderLine (lengthLine 1 (bytes "3")) ∧
    HeaderLine (lengthLine 0 (bytes "12")) := by
  refine ⟨⟨?_, ?_, ?_⟩, ⟨?_, ?_, ?_⟩, ⟨?_, ?_, ?_⟩⟩ <;> decide +kernel

theorem cgiInput_faithful_iff_host : cgiInput 0 (headOf ([bytes "Host: a"] ++
    lengthLine 1 (bytes "3") :: []) ++ bytes "x=1") =
      .ok (some (decimal (bytes "3"), (bytes "x=1").take (decimal (bytes "3")))) := by
  obtain ⟨hhost, hlength, -⟩ := headerLine_short
  refine (cgiInput_faithful_iff ?_ ?_ hlength (by decide +kernel) (by decide +kernel) 0 _).mpr
    (by decide +kernel)
  · intro line hline
    rw [List.mem_singleton.mp hline]
    exact ⟨hhost, by decide⟩
  · intro line hline
    cases hline

/-- Without a blank behind the colon the first digit is not read: 2 bytes for 12. -/
theorem cgiInput_skips : ¬ ∀ (before after : List (List UInt8)) (blanks : Nat) (ds : List UInt8)
    (c : UInt8) (body : List UInt8),
    (∀ line ∈ before, HeaderLine line ∧ ¬ bytes "Content-Length:" <+: line) →
    (∀ line ∈ after, HeaderLine line ∧ ¬ bytes "Content-Length:" <+: line) →
    HeaderLine (lengthLine blanks ds) → ds ≠ [] → (∀ b ∈ ds, isDigit b = true) →
    cgiInput c (headOf (before ++ lengthLine blanks ds :: after) ++ body) =
      .ok (some (decimal ds, body.take (decimal ds))) := by
  intro hall
  obtain ⟨-, -, hline⟩ := headerLine_short
  have hnone : ∀ line ∈ ([] : List (List UInt8)),
      HeaderLine line ∧ ¬ bytes "Content-Length:" <+: line := by
    intro line hmem
    cases hmem
  have hfaithful := hall [] [] 0 (bytes "12") 0 (bytes "hello world!") hnone hnone hline
    (by decide +kernel) (by decide +kernel)
  have hlines : ∀ line ∈ [lengthLine 0 (bytes "12")], HeaderLine line := by
    intro line hmem
    rw [List.mem_singleton.mp hmem]
    exact hline
  rw [List.nil_append, cgiInput_lines 0 hlines, Except.ok.injEq] at hfaithful
  revert hfaithful
  decide +kernel

end TinyHTTP.Version01
