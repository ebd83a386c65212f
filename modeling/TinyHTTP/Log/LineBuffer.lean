import TinyHTTP.Log.LogFile

/-!
# TinyHTTP — a line in its buffer

`write_log` prints the prefix of a line into 48 bytes of `m_buf` and the message behind
it, with the size of the whole buffer as the bound; then it stores a newline and a NUL
where the message would end if nothing were cut off.

* `length_linePrefix` — how long a prefix is; it always fits.
* `lineWhole_iff` — which messages leave the writes inside the buffer, and the newline at
  the end of the line.
-/

namespace TinyHTTP.Log

open TinyHTTP.Lib

/-- Everything is written inside `m_buf`, and `log_str` ends with the newline that was stored. -/
def LineWhole (l : FileLog) (t : Timestamp) (level : Int) (message : List UInt8) : Prop :=
  ∃ l' line, l.formatLine t level message = some (l', line ++ [10]) ∧
    (line.length : Int) = (linePrefix t level).length + returned message

-- ---------------------------------------------------------------------------
-- The prefix
-- ---------------------------------------------------------------------------

theorem length_levelText (level : Int) : (levelText level).length ≤ 8 := by
  unfold levelText
  repeat' split
  all_goals decide +kernel

theorem levelText_ne_zero (level : Int) : ∀ b ∈ levelText level, b ≠ 0 := by
  unfold levelText
  repeat' split
  all_goals decide +kernel

theorem length_linePrefix (t : Timestamp) (level : Int) :
    (linePrefix t level).length =
      (formatInt t.date.year).length + 24 + (levelText level).length := by
  have htwo : ∀ {n}, n < 100 → (padded 2 n).length = 2 := fun h => length_padded (by decide) h
  have husec : (padded 6 t.usec).length = 6 := length_padded (by decide) t.usec_lt
  have h₁ := htwo (Nat.lt_of_le_of_lt t.date.month_le (by decide))
  have h₂ := htwo (Nat.lt_of_le_of_lt t.date.day_le (by decide))
  have h₃ := htwo (Nat.lt_trans t.hour_lt (by decide))
  have h₄ := htwo (Nat.lt_trans t.minute_lt (by decide))
  have h₅ := htwo (Nat.lt_of_le_of_lt t.second_le (by decide))
  simp only [linePrefix, List.length_append, List.length_cons, List.length_nil, h₁, h₂, h₃, h₄, h₅,
    husec]
  omega

/-- 48 bytes are enough. -/
theorem length_linePrefix_le (t : Timestamp) (level : Int) : (linePrefix t level).length ≤ 43 := by
  have hyear := length_formatInt_le t.date.le_year t.date.year_lt
  have hlevel := length_levelText level
  rw [length_linePrefix]
  omega

theorem padded_ne_zero {w n : Nat} : ∀ b ∈ padded w n, b ≠ 0 := by
  intro b hb
  rintro rfl
  cases isDigit_of_mem_padded hb

theorem linePrefix_ne_zero (t : Timestamp) (level : Int) : ∀ b ∈ linePrefix t level, b ≠ 0 := by
  have hyear : ∀ b ∈ formatInt t.date.year, b ≠ 0 := by
    intro b hb
    rintro rfl
    rcases mem_formatInt hb with h | h <;> cases h
  have hlevel := levelText_ne_zero level
  simp only [linePrefix, List.forall_mem_append, List.forall_mem_cons]
  and_intros
  all_goals first
    | exact padded_ne_zero
    | exact hyear
    | exact hlevel
    | exact List.forall_mem_nil _
    | decide

-- ---------------------------------------------------------------------------
-- The line
-- ---------------------------------------------------------------------------

/-- A message that fits is printed, and the newline and the NUL come behind it. -/
theorem formatLine_eq {l : FileLog} {t : Timestamp} {level : Int} {message : List UInt8}
    (hsize : l.logBufSize < 2 ^ 31)
    (hfit : (linePrefix t level).length + message.length + 2 ≤ l.logBufSize)
    (h : 64 ≤ l.logBufSize) :
    l.formatLine t level message =
      (cstring (writeBytes l.buf 0 (linePrefix t level ++ message ++ [10, 0])) l.logBufSize
        0).toOption.map fun logStr =>
          ({ l with buf := writeBytes l.buf 0 (linePrefix t level ++ message ++ [10, 0]) },
            logStr) := by
  have hprefix := length_linePrefix_le t level
  have hreturned : returned message = message.length := if_pos (by omega)
  have h₁ : snprintf l.buf l.logBufSize 0 48 (linePrefix t level) =
      some (writeBytes l.buf 0 (linePrefix t level ++ [0])) := by
    rw [snprintf, if_pos (by omega), List.take_of_length_le (by omega)]
  have h₂ : snprintf (writeBytes l.buf 0 (linePrefix t level ++ [0])) l.logBufSize
      (linePrefix t level).length (l.logBufSize - 1) message =
      some (writeBytes l.buf 0 (linePrefix t level ++ message ++ [0])) := by
    have hover := @writeBytes_over l.buf 0 (linePrefix t level) [0] (message ++ [0]) (by simp)
    rw [Nat.zero_add] at hover
    rw [snprintf, if_pos (by omega), List.take_of_length_le (by omega), hover, List.append_assoc]
  have h₃ : store (writeBytes l.buf 0 (linePrefix t level ++ message ++ [0])) l.logBufSize
      ((linePrefix t level).length + (message.length : Int)) 10 =
      some (writeBytes l.buf 0 (linePrefix t level ++ message ++ [10])) := by
    have hover := @writeBytes_over l.buf 0 (linePrefix t level ++ message) [0] [10] (by simp)
    rw [Nat.zero_add, List.length_append, ← update_eq_writeBytes] at hover
    rw [store, if_pos (by omega), ← hover]
    rfl
  have h₄ : store (writeBytes l.buf 0 (linePrefix t level ++ message ++ [10])) l.logBufSize
      ((linePrefix t level).length + (message.length : Int) + 1) 0 =
      some (writeBytes l.buf 0 (linePrefix t level ++ message ++ [10, 0])) := by
    have happend := writeBytes_append l.buf 0 (linePrefix t level ++ message ++ [10]) [0]
    rw [Nat.zero_add, ← update_eq_writeBytes, List.length_append, List.length_append,
      List.append_assoc _ [10]] at happend
    rw [store, if_pos (by omega)]
    exact congrArg some happend.symm
  unfold FileLog.formatLine
  simp only [h₁, h₂, hreturned, h₃, h₄, Option.bind_eq_bind, Option.bind_some]
  rw [Option.map_eq_bind]
  rfl

theorem toOption_eq_some {α : Type} {x : Except Fault α} {a : α} (h : x.toOption = some a) :
    x = .ok a := by
  cases x with
  | error e => cases h
  | ok b => exact congrArg _ (Option.some.inj h)

/-- What comes back has been written inside the buffer. -/
theorem formatLine_fits {l l' : FileLog} {t : Timestamp} {level : Int}
    {message line : List UInt8} (hsize : l.logBufSize < 2 ^ 31)
    (h : l.formatLine t level message = some (l', line)) :
    (linePrefix t level).length + message.length + 2 ≤ l.logBufSize := by
  simp only [FileLog.formatLine, Option.bind_eq_bind, Option.bind_eq_some_iff] at h
  obtain ⟨_, -, _, hmessage, _, -, _, hnul, -⟩ := h
  unfold snprintf at hmessage
  split at hmessage
  · rename_i hbound
    have hprefix : 24 ≤ (linePrefix t level).length := by
      rw [length_linePrefix]
      omega
    have hreturned : returned message = message.length := if_pos (by omega)
    unfold store at hnul
    split at hnul
    · rename_i hend
      rw [hreturned] at hend
      omega
    · cases hnul
  · cases hmessage

/-- A line is its prefix and its message. -/
theorem formatLine_text {l : FileLog} {t : Timestamp} {level : Int} {message : List UInt8}
    (h : 64 ≤ l.logBufSize) (hsize : l.logBufSize < 2 ^ 31)
    (hfit : (linePrefix t level).length + message.length + 2 ≤ l.logBufSize)
    (hne : ∀ b ∈ message, b ≠ 0) :
    l.formatLine t level message =
      some ({ l with buf := writeBytes l.buf 0 (linePrefix t level ++ message ++ [10, 0]) },
        linePrefix t level ++ message ++ [10]) := by
  have htext : linePrefix t level ++ message ++ [10, 0] =
      linePrefix t level ++ message ++ [10] ++ [0] := by
    rw [List.append_assoc _ [10]]
    rfl
  have hstring : HasString (writeBytes l.buf 0 (linePrefix t level ++ message ++ [10] ++ [0])) 0
      (linePrefix t level ++ message ++ [10]) := by
    refine hasString_writeBytes_nul _ 0 ?_
    simp only [List.forall_mem_append]
    exact ⟨⟨linePrefix_ne_zero t level, hne⟩, by simp⟩
  have hlen : (linePrefix t level ++ message ++ [10]).length < l.logBufSize := by
    simp only [List.length_append, List.length_cons, List.length_nil]
    omega
  rw [formatLine_eq hsize hfit h, htext, cstring_toOption hstring hlen]
  rfl

/-- **A line in its buffer.** -/
theorem lineWhole_iff {l : FileLog} (h : 64 ≤ l.logBufSize) (hsize : l.logBufSize < 2 ^ 31)
    (t : Timestamp) (level : Int) (message : List UInt8) :
    LineWhole l t level message ↔
      (linePrefix t level).length + message.length + 2 ≤ l.logBufSize ∧ ∀ b ∈ message, b ≠ 0 := by
  constructor
  · rintro ⟨l', line, hline, hlen⟩
    have hfit := formatLine_fits hsize hline
    have hreturned : returned message = message.length := if_pos (by omega)
    rw [formatLine_eq hsize hfit h, Option.map_eq_some_iff] at hline
    obtain ⟨logStr, hstr, heq⟩ := hline
    obtain rfl : logStr = line ++ [10] := (Prod.mk.inj heq).2
    obtain ⟨hstring, -⟩ := hasString_cstring (toOption_eq_some hstr)
    refine ⟨hfit, fun b hb => ?_⟩
    -- the string reaches as far as the newline, so no byte of the message stops it
    obtain ⟨k, hk, rfl⟩ := List.getElem_of_mem hb
    have hbyte := hstring.byte ((linePrefix t level).length + k)
      (by rw [List.length_append]; omega)
    rw [writeBytes_of_mem (by simp; omega),
      List.getElem_append_left (by rw [List.length_append]; omega),
      List.getElem_append_right (by omega)] at hbyte
    simp only [Nat.add_sub_cancel_left] at hbyte
    rw [hbyte]
    exact hstring.nonzero _ (List.getElem_mem _)
  · rintro ⟨hfit, hne⟩
    have hreturned : returned message = message.length := if_pos (by omega)
    refine ⟨_, linePrefix t level ++ message, formatLine_text h hsize hfit hne, ?_⟩
    rw [hreturned, List.length_append]
    omega

theorem length_linePrefix_january : (linePrefix january.midnight 1).length = 35 := by
  rw [length_linePrefix]
  decide +kernel

/-- The longest message for the buffer of 2000 bytes that `main` asks for. -/
theorem lineWhole_longest :
    LineWhole { FileLog.instance with logBufSize := 2000 } january.midnight 1
      (List.replicate 1963 97) := by
  refine (lineWhole_iff ?_ ?_ january.midnight 1 _).mpr ⟨?_, fun b hb => ?_⟩
  · change 64 ≤ 2000
    decide
  · change 2000 < 2 ^ 31
    decide
  · rw [length_linePrefix_january, List.length_replicate]
  · rw [List.eq_of_mem_replicate hb]
    decide

/-- One byte more, which a line of a request can have, and the NUL is stored behind the buffer. -/
theorem line_overflows :
    ¬ LineWhole { FileLog.instance with logBufSize := 2000 } january.midnight 1
      (List.replicate 1964 97) := by
  rintro ⟨l', line, hline, -⟩
  have hsize : (2000 : Nat) < 2 ^ 31 := by decide
  have hfit := formatLine_fits hsize hline
  rw [length_linePrefix_january, List.length_replicate] at hfit
  exact absurd hfit (by decide)

end TinyHTTP.Log
