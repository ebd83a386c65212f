import TinyHTTP.Log.LogFile

/-!
# TinyHTTP — one name for a day

`init` makes the name of the file from its argument, `write_log` from `dir_name` and
`log_name`; without a slash in the argument `init` fills neither of the two. The date goes
through 16 bytes in `write_log`, and the whole name through 255.

* `names_agree_iff` — when `write_log` opens the name that `init` opens on that day, and
  numbers it.
-/

namespace TinyHTTP.Log

open TinyHTTP.Lib

/-- What `write_log` opens on a day, after any calls, is what `init` opens on that day; when the
file is full, this and a number. -/
def NamesAgree (fileName : List UInt8) (logBufSize : Nat) (maxLines : Int) (d : Date)
    (index : Int) : Prop :=
  ∃ l name, FileLog.instance.init fileName logBufSize maxLines d true = some (l, name) ∧
    ∀ s, Reachable (Started fileName maxLines) LogRun.step (fun _ _ => True) s →
      s.log.dayName d = some name ∧
        s.log.countName d index = some (name ++ 46 :: formatInt index)

/-- The base of the name is kept, and nothing is cut off. -/
structure NamesFit (fileName : List UInt8) (d : Date) (index : Int) : Prop where
  kept : 47 ∈ fileName ∧ (dirPart fileName).length < 128 ∧ (basePart fileName).length < 128 ∨
    fileName = []
  year : (formatInt d.year).length ≤ 8
  short : (dirPart fileName ++ dateText d ++ basePart fileName).length + 1 +
    (formatInt index).length ≤ 254

theorem length_dayText (d : Date) : (dayText d).length = (formatInt d.year).length + 6 := by
  have hmonth : (padded 2 d.month).length = 2 :=
    length_padded (by decide) (Nat.lt_of_le_of_lt d.month_le (by decide))
  have hday : (padded 2 d.day).length = 2 :=
    length_padded (by decide) (Nat.lt_of_le_of_lt d.day_le (by decide))
  simp only [dayText, List.length_append, List.length_cons, hmonth, hday]

theorem length_dateText (d : Date) : (dateText d).length = (formatInt d.year).length + 7 := by
  rw [dateText, List.length_append, length_dayText]
  rfl

theorem tailText_eq {d : Date} (h : (formatInt d.year).length ≤ 8) : tailText d = dateText d :=
  List.take_of_length_le (by rw [length_dateText]; omega)

theorem take_eq_self {α : Type} {xs : List α} {n : Nat} (h : (xs.take n).length < n) :
    xs.take n = xs := by
  rw [List.length_take] at h
  exact List.take_of_length_le (by omega)

/-- **One name for a day.** -/
theorem names_agree_iff {fileName : List UInt8} (hname : ∀ b ∈ fileName, b ≠ 0)
    (logBufSize : Nat) (maxLines : Int) (d : Date) (index : Int) :
    NamesAgree fileName logBufSize maxLines d index ↔ NamesFit fileName d index := by
  constructor
  · rintro ⟨l, name, hinit, hagree⟩
    have hcase := init_cases hname hinit
    obtain ⟨hday, hcount⟩ := hagree _ (.init ⟨hinit⟩)
    have hnamed : Named fileName maxLines ⟨l, [name], [], d, d.midnight, d⟩ :=
      ⟨hcase.storable, hcase.dir, hcase.base, hcase.maxLines⟩
    rw [hnamed.dayName, Option.some.injEq, hcase.name_eq, fullName] at hday
    rw [hnamed.countName, Option.some.injEq, hcase.name_eq, fullName] at hcount
    -- the numbered name shows that nothing is cut off
    have hlen := congrArg List.length hcount
    have hle := List.length_take_le 254
      (dirPart fileName ++ tailText d ++ keptBase fileName ++ 46 :: formatInt index)
    rw [hlen, List.length_append, List.length_cons] at hle
    have hfull := @take_eq_self _ (dirPart fileName ++ dateText d ++ basePart fileName) 254
      (by omega)
    rw [hfull] at hday hle
    have hshort :
        ((dirPart fileName ++ tailText d ++ keptBase fileName).take 254).length < 254 := by
      rw [hday]
      omega
    rw [take_eq_self hshort] at hday
    have hsame := congrArg List.length hday
    have htail : (tailText d).length = min 15 (dateText d).length := List.length_take
    have hkept : (keptBase fileName).length ≤ (basePart fileName).length := by
      unfold keptBase
      split
      · exact Nat.le_refl _
      · exact Nat.zero_le _
    simp only [List.length_append] at hsame
    have hyear := length_dateText d
    refine ⟨?_, by omega, by omega⟩
    by_cases hmem : 47 ∈ fileName
    · exact Or.inl ⟨hmem, hcase.storable hmem⟩
    · right
      have hempty : (keptBase fileName).length = 0 := by
        rw [keptBase, if_neg hmem]
        rfl
      rw [← (parts_of_not_mem hmem).2]
      exact List.length_eq_zero_iff.mp (by omega)
  · rintro ⟨hkept, hyear, hshort⟩
    have hstorable : Storable fileName := by
      intro hmem
      rcases hkept with ⟨-, hparts⟩ | rfl
      · exact hparts
      · cases hmem
    have hbase : keptBase fileName = basePart fileName := by
      rcases hkept with ⟨hmem, -⟩ | rfl
      · exact if_pos hmem
      · rfl
    obtain ⟨l, hinit, -⟩ := init_some hname hstorable logBufSize maxLines d true
    have hfull : fullName fileName d = dirPart fileName ++ dateText d ++ basePart fileName :=
      List.take_of_length_le (by omega)
    refine ⟨l, _, hinit, fun s hs => ?_⟩
    have hnamed := named_reachable hname hs
    rw [hnamed.dayName, hnamed.countName, hbase, tailText_eq hyear, hfull]
    refine ⟨congrArg some hfull, congrArg some (List.take_of_length_le ?_)⟩
    rw [List.length_append, List.length_cons]
    omega

/-- A log with a directory, and its file for the next line after 800000. -/
theorem names_agree_logs :
    NamesAgree (bytes "./logs/ServerLog") 2000 800000 february 1 :=
  (names_agree_iff (by decide +kernel) 2000 800000 february 1).mpr
    ⟨Or.inl (by decide), by decide +kernel, by decide +kernel⟩

/-- The name that `main` passes has no slash: on another day the file is `2024_02_15_`. -/
theorem names_disagree :
    ¬ NamesAgree (bytes "ServerLog") 2000 800000 february 1 := by
  rintro ⟨l, name, hinit, hagree⟩
  have hcase := init_cases (by decide +kernel) hinit
  have hday := (hagree _ (.init ⟨hinit⟩)).1
  simp only [FileLog.dayName, hcase.dir, hcase.base, hcase.name_eq, Option.bind_eq_bind,
    Option.bind_some] at hday
  revert hday
  decide +kernel

end TinyHTTP.Log
