import Mathlib.Data.List.DropRight
import TinyHTTP.Version01.ServeRequest

/-!
# TinyHTTP — version_01: the file that is sent

`cat` sends what `fgets` has read, up to its first NUL, unless `feof` holds by then.

* `fgetsLines_flatten` — the lines that are sent and the bytes that are not.
* `length_unsent` — the bytes behind the last newline that do not fill a buffer.
* `cat_faithful_iff` — when the file arrives as it is.
-/

namespace TinyHTTP.Version01

open TinyHTTP.Lib
open TinyHTTP.Http (asString lf)

/-- The bytes that are sent. -/
def sentBytes (calls : List SockCall) : List UInt8 :=
  calls.flatMap fun call =>
    match call with
    | .send text => text
    | _ => []

/-- What `fgets` has read when it meets the end of the file. -/
def unsent (room : Nat) (line : List UInt8) : List UInt8 → List UInt8
  | [] => line
  | c :: file =>
    if c = lf ∨ room = 1 then unsent (bufSize - 1) [] file else unsent (room - 1) (line ++ [c]) file

/-- The part of a file behind its last newline. -/
def lastLine (file : List UInt8) : List UInt8 := file.rtakeWhile fun b => b ≠ lf

/-- The pieces that `fgets` returns are the file, less the piece behind the last `feof`. -/
theorem fgetsLines_flatten (room : Nat) (line file : List UInt8) :
    (fgetsLines room line file).flatten ++ unsent room line file = line ++ file := by
  induction file generalizing room line with
  | nil => simp [fgetsLines, unsent]
  | cons c file ih =>
    unfold fgetsLines unsent
    split
    · rw [List.flatten_cons, List.append_assoc, ih, List.append_assoc]
      rfl
    · rw [ih, List.append_assoc]
      rfl

theorem lastLine_of_not_mem {file : List UInt8} (h : lf ∉ file) : lastLine file = file := by
  refine List.rtakeWhile_eq_self_iff.mpr ?_
  intro b hb
  refine decide_eq_true ?_
  rintro rfl
  exact h hb

theorem lastLine_cons {c : UInt8} {file : List UInt8} (h : lf ∈ file) :
    lastLine (c :: file) = lastLine file := by
  unfold lastLine List.rtakeWhile
  rw [List.reverse_cons, List.takeWhile_append, if_neg]
  intro hlen
  have hall := (List.takeWhile_prefix _).eq_of_length hlen
  have hlf := List.takeWhile_eq_self_iff.mp hall lf (List.mem_reverse.mpr h)
  exact absurd hlf (by decide)

theorem lastLine_lf {file : List UInt8} (h : lf ∉ file) : lastLine (lf :: file) = file := by
  have hall : ∀ b ∈ file.reverse, decide (b ≠ lf) = true := by
    intro b hb
    refine decide_eq_true ?_
    rintro rfl
    exact h (List.mem_reverse.mp hb)
  unfold lastLine List.rtakeWhile
  rw [List.reverse_cons, List.takeWhile_append_of_pos hall, List.takeWhile_cons_of_neg (by decide),
    List.append_nil, List.reverse_reverse]

/-- The bytes that are not sent, by the length of the last line. -/
theorem length_unsent {room : Nat} (hroom : 1 ≤ room) {line : List UInt8}
    (hline : line.length + room = 1023) (file : List UInt8) :
    (unsent room line file).length =
      if lf ∈ file then (lastLine file).length % 1023 else (line.length + file.length) % 1023 := by
  induction file generalizing room line with
  | nil =>
    rw [if_neg List.not_mem_nil]
    exact (Nat.mod_eq_of_lt (show line.length < 1023 by omega)).symm
  | cons c file ih =>
    unfold unsent
    split
    · rename_i hcut
      rw [ih (by decide) rfl]
      by_cases hfile : lf ∈ file
      · rw [if_pos hfile, if_pos (List.mem_cons_of_mem _ hfile), lastLine_cons hfile]
      · rw [if_neg hfile]
        by_cases hc : c = lf
        · subst hc
          rw [if_pos (List.mem_cons_self ..), lastLine_lf hfile, List.length_nil, Nat.zero_add]
        · have hone := hcut.resolve_left hc
          rw [if_neg (by simp [hfile, Ne.symm hc]), List.length_nil, List.length_cons]
          omega
    · rename_i hcut
      obtain ⟨hc, hone⟩ := not_or.mp hcut
      rw [ih (by omega) (by rw [List.length_append, List.length_singleton]; omega)]
      by_cases hfile : lf ∈ file
      · rw [if_pos hfile, if_pos (List.mem_cons_of_mem _ hfile), lastLine_cons hfile]
      · rw [if_neg hfile, if_neg (by simp [hfile, Ne.symm hc]), List.length_append,
          List.length_singleton, List.length_cons, Nat.add_assoc, Nat.add_comm 1]

/-- `strlen` sees all of a piece that has no NUL. -/
theorem asString_eq_self_iff {bs : List UInt8} : asString bs = bs ↔ 0 ∉ bs := by
  rw [asString, List.takeWhile_eq_self_iff]
  constructor
  · intro h hmem
    exact absurd (h 0 hmem) (by decide)
  · intro h b hb
    refine decide_eq_true ?_
    rintro rfl
    exact h hb

/-- And never more than the piece. -/
theorem length_flatMap_asString_le (pieces : List (List UInt8)) :
    (pieces.flatMap asString).length ≤ pieces.flatten.length := by
  induction pieces with
  | nil => exact Nat.le_refl _
  | cons piece pieces ih =>
    rw [List.flatMap_cons, List.flatten_cons, List.length_append, List.length_append]
    exact Nat.add_le_add (List.takeWhile_prefix _).length_le ih

/-- Strings of pieces make up the pieces when no piece has a NUL in it. -/
theorem flatMap_asString_iff {pieces : List (List UInt8)} :
    pieces.flatMap asString = pieces.flatten ↔ 0 ∉ pieces.flatten := by
  induction pieces with
  | nil => exact iff_of_true rfl List.not_mem_nil
  | cons piece pieces ih =>
    rw [List.flatMap_cons, List.flatten_cons, List.mem_append, not_or, ← ih,
      ← asString_eq_self_iff]
    constructor
    · intro h
      have hlen := congrArg List.length h
      have hpiece : (asString piece).length ≤ piece.length := (List.takeWhile_prefix _).length_le
      have hrest := length_flatMap_asString_le pieces
      rw [List.length_append, List.length_append] at hlen
      exact List.append_inj h (by omega)
    · rintro ⟨hpiece, hrest⟩
      rw [hpiece, hrest]

/-- Each piece is sent up to its first NUL. -/
theorem sentBytes_cat (file : List UInt8) :
    sentBytes (cat file) = (fgetsLines (bufSize - 1) [] file).flatMap asString := by
  rw [sentBytes, cat, List.flatMap_map]

/-- **The file that is sent** is the file when it has no NUL in it, and what stands behind its last
newline fills buffers. -/
theorem cat_faithful_iff (file : List UInt8) :
    sentBytes (cat file) = file ↔ 0 ∉ file ∧ (lastLine file).length % 1023 = 0 := by
  have hsplit := fgetsLines_flatten (bufSize - 1) [] file
  have hunsent : (unsent (bufSize - 1) [] file).length = (lastLine file).length % 1023 := by
    rw [length_unsent (by decide) rfl]
    split
    · rfl
    · rename_i hlf
      rw [lastLine_of_not_mem hlf, List.length_nil, Nat.zero_add]
  rw [List.nil_append] at hsplit
  rw [sentBytes_cat, ← hunsent, List.length_eq_zero_iff]
  generalize fgetsLines (bufSize - 1) [] file = pieces at hsplit
  generalize unsent (bufSize - 1) [] file = rest at hsplit
  constructor
  · intro h
    -- nothing is left out of a file that arrives at its full length
    have hle := length_flatMap_asString_le pieces
    have hlen := congrArg List.length hsplit
    rw [List.length_append] at hlen
    rw [h] at hle
    obtain rfl : rest = [] := List.length_eq_zero_iff.mp (by omega)
    rw [List.append_nil] at hsplit
    subst hsplit
    exact ⟨flatMap_asString_iff.mp h, rfl⟩
  · rintro ⟨hnul, rfl⟩
    rw [List.append_nil] at hsplit
    subst hsplit
    exact flatMap_asString_iff.mpr hnul

/-- The last line of a file without a newline at its end is not sent. -/
theorem cat_drops : ¬ ∀ file : List UInt8, sentBytes (cat file) = file := by
  intro hall
  have hfile := hall (bytes "a\nb")
  revert hfile
  decide +kernel

end TinyHTTP.Version01
