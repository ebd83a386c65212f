import TinyHTTP.Lib.Memory

/-!
# TinyHTTP — C strings as lists

The string functions again, now over the list of bytes that a NUL-terminated
string holds: where `HasString m i h`, a scan in the memory is a `takeWhile` on
`h`, a comparison is a comparison of prefixes, `atol` is `atolList`.
-/

namespace TinyHTTP.Lib

/-- The NUL-terminated string at `m + i` is `h`. -/
structure HasString (m : Mem) (i : Nat) (h : List UInt8) : Prop where
  byte : ∀ k (hk : k < h.length), m (i + k) = h[k]
  nul : m (i + h.length) = 0
  nonzero : ∀ b ∈ h, b ≠ 0

/-- The tail of a string. -/
theorem HasString.drop {m : Mem} {i : Nat} {h : List UInt8} (hs : HasString m i h) {k : Nat}
    (hk : k ≤ h.length) : HasString m (i + k) (h.drop k) where
  byte := by
    intro j hj
    rw [List.length_drop] at hj
    rw [List.getElem_drop, Nat.add_assoc]
    exact hs.byte (k + j) (by omega)
  nul := by
    rw [List.length_drop, show i + k + (h.length - k) = i + h.length by omega]
    exact hs.nul
  nonzero := fun b hb => hs.nonzero b (List.mem_of_mem_drop hb)

theorem HasString.congr {m m' : Mem} {i : Nat} {h : List UInt8} (hs : HasString m i h)
    (hm : ∀ j, i ≤ j → j ≤ i + h.length → m' j = m j) : HasString m' i h where
  byte := by
    intro k hk
    rw [hm (i + k) (by omega) (by omega)]
    exact hs.byte k hk
  nul := by
    rw [hm _ (by omega) (Nat.le_refl _)]
    exact hs.nul
  nonzero := hs.nonzero

/-- A scan counts the bytes that do not stop it. -/
theorem scan_string {m : Mem} (p : UInt8 → Bool) {fuel i : Nat} {h : List UInt8}
    (hs : HasString m i h) (hf : h.length < fuel) :
    scan m p fuel i = some (i + (h.takeWhile fun b => !p b).length) := by
  induction h generalizing i fuel with
  | nil =>
    cases fuel with
    | zero => omega
    | succ fuel =>
      have h0 : m i = 0 := hs.nul
      rw [scan, if_pos (Or.inl h0)]
      rfl
  | cons b h ih =>
    cases fuel with
    | zero => omega
    | succ fuel =>
      have hb : m i = b := hs.byte 0 (by simp)
      have hne : b ≠ 0 := hs.nonzero b (by simp)
      rw [List.length_cons] at hf
      rw [scan, hb]
      by_cases hp : p b
      · rw [if_pos (Or.inr hp), List.takeWhile_cons_of_neg (by simp [hp])]
        rfl
      · have hs' : HasString m (i + 1) h := hs.drop (k := 1) (by simp)
        rw [if_neg (by simp [hne, hp]), List.takeWhile_cons_of_pos (by simp [hp]),
          ih hs' (by omega), List.length_cons]
        congr 1
        omega

theorem scanFrom_string {m : Mem} {size i : Nat} (p : UInt8 → Bool) {h : List UInt8}
    (hs : HasString m i h) (hsize : i + h.length < size) :
    scanFrom m size p i = .ok (i + (h.takeWhile fun b => !p b).length) := by
  rw [scanFrom, scan_string p hs (by omega)]

theorem drop_takeWhile {α : Type} (p : α → Bool) (h : List α) :
    h.drop (h.takeWhile p).length = h.dropWhile p :=
  calc h.drop (h.takeWhile p).length
      = (h.takeWhile p ++ h.dropWhile p).drop (h.takeWhile p).length := by
        rw [List.takeWhile_append_dropWhile]
    _ = h.dropWhile p := List.drop_left

theorem take_takeWhile {α : Type} (p : α → Bool) (h : List α) :
    h.take (h.takeWhile p).length = h.takeWhile p :=
  (List.prefix_iff_eq_take.mp (List.takeWhile_prefix p)).symm

theorem takeWhile_stop {α : Type} {p : α → Bool} {front rest : List α} {a : α}
    (hfront : ∀ b ∈ front, p b = true) (ha : p a = false) :
    (front ++ a :: rest).takeWhile p = front := by
  rw [List.takeWhile_append_of_pos hfront, List.takeWhile_cons_of_neg (by simp [ha]),
    List.append_nil]

/-- What is left of a string behind a scan. -/
theorem HasString.dropWhile {m : Mem} {i : Nat} {h : List UInt8} (hs : HasString m i h)
    (p : UInt8 → Bool) : HasString m (i + (h.takeWhile p).length) (h.dropWhile p) := by
  rw [← drop_takeWhile]
  exact hs.drop (List.takeWhile_prefix p).length_le

theorem length_dropWhile {α : Type} (p : α → Bool) (h : List α) :
    (h.takeWhile p).length + (h.dropWhile p).length = h.length := by
  rw [← List.length_append, List.takeWhile_append_dropWhile]

/-- Skipping a set of bytes. -/
theorem skipSpan_string {m : Mem} (size : Nat) {i : Nat} (set : List UInt8) {h : List UInt8}
    (hs : HasString m i h) (hsize : i + h.length < size) :
    ∃ j, skipSpan m size i set = .ok j ∧ j + (h.dropWhile fun b => set.contains b).length =
      i + h.length ∧ HasString m j (h.dropWhile fun b => set.contains b) := by
  have hlen := length_dropWhile (fun b => set.contains b) h
  refine ⟨i + (h.takeWhile fun b => set.contains b).length, ?_, by omega, hs.dropWhile _⟩
  rw [skipSpan, scanFrom_string _ hs hsize]
  simp only [Bool.not_not]

theorem lower_ne_zero {b : UInt8} (h : b ≠ 0) : lower b ≠ lower 0 := by
  have hzero : lower 0 = 0 := by decide
  rw [hzero]
  unfold lower
  split
  · rename_i hb
    intro h0
    have h₁ := UInt8.le_iff_toNat_le.mp hb.1
    have h₂ := UInt8.le_iff_toNat_le.mp hb.2
    have h₃ := congrArg UInt8.toNat h0
    simp only [UInt8.toNat_add, UInt8.toNat_ofNat] at h₁ h₂ h₃
    omega
  · exact h

/-- `strncasecmp` against a text without NULs compares prefixes. -/
theorem strncasecmpEq_string {m : Mem} {i : Nat} {h : List UInt8} (hs : HasString m i h)
    {t : List UInt8} (ht : ∀ c ∈ t, lower c ≠ 0) :
    strncasecmpEq m i t = true ↔ (h.take t.length).map lower = t.map lower := by
  induction t generalizing i h with
  | nil => simp [strncasecmpEq]
  | cons c t ih =>
    rw [strncasecmpEq, Bool.and_eq_true, beq_iff_eq]
    cases h with
    | nil =>
      have h0 : m i = 0 := hs.nul
      have hc := ht c (by simp)
      constructor
      · rintro ⟨h₁, -⟩
        rw [h0] at h₁
        exact absurd h₁.symm hc
      · intro h₁
        simp at h₁
    | cons b h =>
      have hb : m i = b := hs.byte 0 (by simp)
      have hs' : HasString m (i + 1) h := hs.drop (k := 1) (by simp)
      rw [hb, ih hs' fun c' hc' => ht c' (List.mem_cons_of_mem _ hc')]
      simp

/-- `strcasecmp` against a text without NULs compares the whole string. -/
theorem strcasecmpEq_string {m : Mem} {i : Nat} {h : List UInt8} (hs : HasString m i h)
    {t : List UInt8} (ht : ∀ c ∈ t, lower c ≠ 0) :
    strcasecmpEq m i t = true ↔ h.map lower = t.map lower := by
  unfold strcasecmpEq
  induction t generalizing i h with
  | nil =>
    rw [List.nil_append, strncasecmpEq, strncasecmpEq, Bool.and_true, beq_iff_eq]
    cases h with
    | nil =>
      have h0 : m i = 0 := hs.nul
      exact ⟨fun _ => rfl, fun _ => congrArg lower h0⟩
    | cons b h =>
      have hb : m i = b := hs.byte 0 (by simp)
      have hne : b ≠ 0 := hs.nonzero b (by simp)
      rw [hb]
      constructor
      · intro hl
        exact absurd hl (lower_ne_zero hne)
      · intro hl
        simp at hl
  | cons c t ih =>
    rw [List.cons_append, strncasecmpEq, Bool.and_eq_true, beq_iff_eq]
    cases h with
    | nil =>
      have h0 : m i = 0 := hs.nul
      have hc := ht c (by simp)
      constructor
      · rintro ⟨h₁, -⟩
        rw [h0] at h₁
        exact absurd h₁.symm hc
      · intro h₁
        simp at h₁
    | cons b h =>
      have hb : m i = b := hs.byte 0 (by simp)
      have hs' : HasString m (i + 1) h := hs.drop (k := 1) (by simp)
      rw [hb, ih hs' fun c' hc' => ht c' (List.mem_cons_of_mem _ hc')]
      simp

theorem HasString.head_eq_zero {m : Mem} {i : Nat} {h : List UInt8} (hs : HasString m i h) :
    m i = 0 ↔ h = [] := by
  cases h with
  | nil => exact ⟨fun _ => rfl, fun _ => hs.nul⟩
  | cons b h =>
    have hb : m i = b := hs.byte 0 (by simp)
    rw [hb]
    exact ⟨fun h0 => absurd h0 (hs.nonzero b (by simp)), fun h0 => by cases h0⟩

/-- A scan that returns `NULL` at the end of the string. -/
theorem scan_null_string {m : Mem} {size i : Nat} (p : UInt8 → Bool) {h : List UInt8}
    (hs : HasString m i h) (hsize : i + h.length < size) :
    (do let j ← scanFrom m size p i
        return if m j = 0 then none else some j : Except Fault (Option Nat)) =
      .ok (if (h.dropWhile fun b => !p b) = [] then none
        else some (i + (h.takeWhile fun b => !p b).length)) := by
  have hrest := (hs.dropWhile fun b => !p b).head_eq_zero
  simp only [scanFrom_string p hs hsize, bind, Except.bind, hrest]
  rfl

theorem strpbrk_string {m : Mem} (size : Nat) {i : Nat} (set : List UInt8) {h : List UInt8}
    (hs : HasString m i h) (hsize : i + h.length < size) :
    strpbrk m size i set = .ok (if (h.dropWhile fun b => !set.contains b) = [] then none
      else some (i + (h.takeWhile fun b => !set.contains b).length)) :=
  scan_null_string _ hs hsize

theorem strchr_string {m : Mem} (size : Nat) {i : Nat} (c : UInt8) {h : List UInt8}
    (hs : HasString m i h) (hsize : i + h.length < size) :
    strchr m size i c = .ok (if (h.dropWhile fun b => !(b == c)) = [] then none
      else some (i + (h.takeWhile fun b => !(b == c)).length)) :=
  scan_null_string _ hs hsize

/-- A NUL written into a string cuts it in two. -/
theorem HasString.cut {m : Mem} {i : Nat} {a c : List UInt8} {b : UInt8}
    (hs : HasString m i (a ++ b :: c)) :
    HasString (Function.update m (i + a.length) 0) i a ∧
      HasString (Function.update m (i + a.length) 0) (i + a.length + 1) c := by
  have hc := hs.drop (k := a.length + 1) (by simp)
  rw [show (a ++ b :: c).drop (a.length + 1) = c by simp [List.drop_append]] at hc
  refine ⟨⟨fun k hk => ?_, Function.update_self .., fun x hx => ?_⟩, ?_⟩
  · have hbyte := hs.byte k (by rw [List.length_append]; omega)
    rw [Function.update_of_ne (by omega), hbyte, List.getElem_append_left hk]
  · exact hs.nonzero x (List.mem_append_left _ hx)
  · refine HasString.congr hc fun j hj _ => ?_
    exact Function.update_of_ne (by omega) ..

theorem slice_string {m : Mem} {i n : Nat} {h : List UInt8} (hs : HasString m i h)
    (hn : n ≤ h.length) : slice m i n = h.take n := by
  refine List.ext_getElem ?_ ?_
  · simp [slice, Nat.min_eq_left hn]
  · intro k h₁ h₂
    have hk : k < n := by simpa [slice] using h₁
    simp only [slice, List.getElem_map, List.getElem_range, List.getElem_take]
    exact hs.byte k (by omega)

theorem cstring_string {m : Mem} {size i : Nat} {h : List UInt8} (hs : HasString m i h)
    (hsize : i + h.length < size) : cstring m size i = .ok h := by
  have hall : (h.takeWhile fun _ => !false) = h := List.takeWhile_eq_self_iff.mpr fun _ _ => rfl
  have hend : strEnd m size i = .ok (i + h.length) := by
    rw [strEnd, scanFrom_string _ hs hsize, hall]
  have hslice : slice m i (i + h.length - i) = h := by
    rw [Nat.add_sub_cancel_left, slice_string hs (Nat.le_refl _), List.take_length]
  simp only [cstring, hend, bind, Except.bind, hslice]
  rfl

/-- There is one string at a place. -/
theorem hasString_unique {m : Mem} {i : Nat} {h h' : List UInt8} (hs : HasString m i h)
    (hs' : HasString m i h') : h = h' := by
  have hc : cstring m (i + h.length + h'.length + 1) i = .ok h := cstring_string hs (by omega)
  have hc' : cstring m (i + h.length + h'.length + 1) i = .ok h' := cstring_string hs' (by omega)
  exact Except.ok.inj (hc.symm.trans hc')

/-- What `cstring` finds is a string in the array. -/
theorem hasString_cstring {m : Mem} {size i : Nat} {h : List UInt8}
    (hc : cstring m size i = .ok h) : HasString m i h ∧ i + h.length < size := by
  obtain ⟨j, hj, hc⟩ := bind_ok.mp hc
  obtain ⟨hij, hjn, hnul, hall⟩ := scanFrom_spec hj
  obtain rfl : slice m i (j - i) = h := Except.ok.inj hc
  have hlen : (slice m i (j - i)).length = j - i := by simp [slice]
  refine ⟨⟨fun k hk => ?_, ?_, fun b hb => ?_⟩, by omega⟩
  · simp [slice]
  · rw [hlen, show i + (j - i) = j by omega]
    exact hnul.resolve_right (by simp)
  · simp only [slice, List.mem_map, List.mem_range] at hb
    obtain ⟨k, hk, rfl⟩ := hb
    exact (hall (i + k) (by omega) (by omega)).1

/-- A text without NULs, written with its NUL. -/
theorem hasString_writeBytes_nul (m : Mem) (i : Nat) {h : List UInt8} (hh : ∀ b ∈ h, b ≠ 0) :
    HasString (writeBytes m i (h ++ [0])) i h where
  byte := by
    intro k hk
    rw [writeBytes_of_mem (by rw [List.length_append]; omega), List.getElem_append_left hk]
  nul := by
    rw [writeBytes_of_mem (by simp), List.getElem_append_right (Nat.le_refl _)]
    simp
  nonzero := hh

/-- A text in front of a string. -/
theorem HasString.front {m : Mem} {i : Nat} {front h : List UInt8}
    (hfront : ∀ k (hk : k < front.length), m (i + k) = front[k]) (hne : ∀ b ∈ front, b ≠ 0)
    (hs : HasString m (i + front.length) h) : HasString m i (front ++ h) where
  byte := by
    intro k hk
    by_cases hlt : k < front.length
    · rw [hfront k hlt, List.getElem_append_left hlt]
    · rw [List.length_append] at hk
      have hj : i + k = i + front.length + (k - front.length) := by omega
      rw [hj, hs.byte _ (by omega), List.getElem_append_right (by omega)]
  nul := by
    rw [List.length_append, ← Nat.add_assoc]
    exact hs.nul
  nonzero := by
    intro b hb
    rcases List.mem_append.mp hb with hb | hb
    · exact hne b hb
    · exact hs.nonzero b hb

theorem strncpy_of_lt {m : Mem} {i n j : Nat} {s : List UInt8} (h : j < i) :
    strncpy m i s n j = m j := writeBytes_of_lt h

theorem strncpy_of_ge {m : Mem} {i n j : Nat} {s : List UInt8} (h : i + n ≤ j) :
    strncpy m i s n j = m j := by
  refine writeBytes_of_ge ?_
  rw [List.length_take]
  omega

/-- `strncpy` leaves a string where the text is shorter than the bound, or a NUL stands behind the
bytes written. -/
theorem hasString_strncpy {m : Mem} {i n : Nat} {s : List UInt8} (hs : ∀ b ∈ s, b ≠ 0)
    (hnul : s.length < n ∨ m (i + n) = 0) : HasString (strncpy m i s n) i (s.take n) where
  byte := by
    intro k hk
    have hk' := hk
    rw [List.length_take] at hk'
    have hlen : ((s ++ List.replicate n 0).take n).length = n := by simp
    rw [strncpy, writeBytes_of_mem (by omega), List.getElem_take, List.getElem_take,
      List.getElem_append_left (by omega)]
  nul := by
    rw [List.length_take]
    by_cases hlt : s.length < n
    · have hmem : min n s.length < ((s ++ List.replicate n 0).take n).length := by
        simp
        omega
      rw [strncpy, writeBytes_of_mem hmem, List.getElem_take, List.getElem_append_right (by omega),
        List.getElem_replicate]
    · rw [Nat.min_eq_left (by omega), strncpy_of_ge (Nat.le_refl _)]
      exact hnul.resolve_left hlt
  nonzero := fun b hb => hs b (List.mem_of_mem_take hb)

theorem HasString.of_nul {m : Mem} {i : Nat} (h : m i = 0) : HasString m i [] where
  byte := nofun
  nul := h
  nonzero := nofun

theorem HasString.cons {m : Mem} {i : Nat} {h : List UInt8} (hne : m i ≠ 0)
    (hs : HasString m (i + 1) h) : HasString m i (m i :: h) where
  byte := by
    intro k hk
    cases k with
    | zero => rfl
    | succ k =>
      rw [← Nat.add_assoc, Nat.add_right_comm]
      exact hs.byte k (Nat.lt_of_succ_lt_succ hk)
  nul := by
    rw [List.length_cons, ← Nat.add_assoc, Nat.add_right_comm]
    exact hs.nul
  nonzero := by
    intro b hb
    rcases List.mem_cons.mp hb with rfl | hb
    · exact hne
    · exact hs.nonzero b hb

/-- The first of the bytes at a place, and the others. -/
theorem bytes_cons {m : Mem} {i : Nat} {b : UInt8} {bs : List UInt8}
    (hbs : ∀ k (hk : k < (b :: bs).length), m (i + k) = (b :: bs)[k]) :
    m i = b ∧ ∀ k (hk : k < bs.length), m (i + 1 + k) = bs[k] := by
  refine ⟨hbs 0 (Nat.zero_lt_succ _), fun k hk => ?_⟩
  rw [Nat.add_assoc, Nat.add_comm 1 k]
  exact hbs (k + 1) (Nat.succ_lt_succ hk)

/-- The string that begins with the bytes of a list ends at its first NUL. -/
theorem hasString_takeWhile {m : Mem} {i : Nat} {bs : List UInt8}
    (hbs : ∀ k (hk : k < bs.length), m (i + k) = bs[k]) (hend : m (i + bs.length) = 0) :
    HasString m i (bs.takeWhile fun b => b ≠ 0) := by
  induction bs generalizing i with
  | nil => exact .of_nul hend
  | cons b bs ih =>
    obtain ⟨hfirst, hrest⟩ := bytes_cons hbs
    by_cases hb : b = 0
    · subst hb
      exact .of_nul hfirst
    · have htail : HasString m (i + 1) (bs.takeWhile fun b => b ≠ 0) := by
        refine ih hrest ?_
        rw [Nat.add_assoc, Nat.add_comm 1 bs.length]
        exact hend
      have hcut : (b :: bs).takeWhile (fun b => decide (b ≠ 0)) =
          m i :: bs.takeWhile fun b => b ≠ 0 := by
        simp [hb, hfirst]
      rw [hcut]
      exact .cons (hfirst ▸ hb) htail

/-- In front of a NUL there is a string. -/
theorem exists_string {m : Mem} {i j : Nat} (hij : i ≤ j) (hnul : m j = 0) :
    ∃ h, HasString m i h ∧ i + h.length ≤ j := by
  have hlen : (slice m i (j - i)).length = j - i := by simp [slice]
  refine ⟨(slice m i (j - i)).takeWhile fun b => b ≠ 0, hasString_takeWhile ?_ ?_, ?_⟩
  · intro k hk
    simp [slice]
  · rw [hlen, Nat.add_sub_cancel' hij]
    exact hnul
  · have hle := (List.takeWhile_prefix (fun b : UInt8 => decide (b ≠ 0))
      (l := slice m i (j - i))).length_le
    omega

/-- Bytes with a NUL among them hold a string. -/
theorem hasString_of_mem {m : Mem} {i : Nat} {bs : List UInt8}
    (hbs : ∀ k (hk : k < bs.length), m (i + k) = bs[k]) (h0 : 0 ∈ bs) :
    HasString m i (bs.takeWhile fun b => b ≠ 0) ∧
      (bs.takeWhile fun b => b ≠ 0).length < bs.length := by
  obtain ⟨front, back, rfl, hfront⟩ := List.eq_append_cons_of_mem h0
  have hcut : (front ++ 0 :: back).takeWhile (fun b => decide (b ≠ 0)) = front := by
    refine takeWhile_stop (fun b hb => decide_eq_true ?_) (by decide)
    rintro rfl
    exact hfront hb
  rw [hcut]
  refine ⟨⟨fun k hk => ?_, ?_, ?_⟩, by simp⟩
  · rw [hbs k (by rw [List.length_append]; omega), List.getElem_append_left hk]
  · rw [hbs front.length (by simp), List.getElem_append_right (Nat.le_refl _)]
    simp
  · rintro b hb rfl
    exact hfront hb

-- ---------------------------------------------------------------------------
-- Searches
-- ---------------------------------------------------------------------------

/-- Whether a string contains `word`, in any case. -/
def findsWord (word : List UInt8) : List UInt8 → Bool
  | [] => word.isEmpty
  | b :: h => ((b :: h).take word.length).map lower == word.map lower || findsWord word h

theorem strncasecmpEq_bytes {m : Mem} {i : Nat} {bs t : List UInt8}
    (hbs : ∀ k (hk : k < bs.length), m (i + k) = bs[k]) (hlen : t.length ≤ bs.length) :
    strncasecmpEq m i t = true ↔ (bs.take t.length).map lower = t.map lower := by
  induction t generalizing i bs with
  | nil => simp [strncasecmpEq]
  | cons c t ih =>
    cases bs with
    | nil => cases hlen
    | cons b bs =>
      obtain ⟨hb, htail⟩ := bytes_cons hbs
      rw [strncasecmpEq, Bool.and_eq_true, beq_iff_eq, hb,
        ih htail (Nat.le_of_succ_le_succ hlen)]
      simp

/-- A word that is there is found, whatever comes behind. -/
theorem strcasestr_found {m : Mem} {fuel i : Nat} {word bs : List UInt8} (hword : word ≠ [])
    (hbs : ∀ k (hk : k < bs.length), m (i + k) = bs[k]) (hne : ∀ b ∈ bs, b ≠ 0)
    (hfuel : bs.length ≤ fuel) (h : findsWord word bs = true) :
    strcasestr m word fuel i = .ok true := by
  induction bs generalizing i fuel with
  | nil => exact absurd (List.isEmpty_iff.mp h) hword
  | cons b bs ih =>
    obtain ⟨hb, htail⟩ := bytes_cons hbs
    obtain ⟨hb0, hne⟩ := List.forall_mem_cons.mp hne
    cases fuel with
    | zero => cases hfuel
    | succ fuel =>
      unfold strcasestr
      split
      · rfl
      · rename_i hnot
        rw [if_neg (hb ▸ hb0)]
        refine ih htail hne (Nat.le_of_succ_le_succ hfuel) ?_
        unfold findsWord at h
        rw [Bool.or_eq_true, beq_iff_eq] at h
        refine h.resolve_left fun hprefix => hnot ?_
        have hlen : word.length ≤ (b :: bs).length := by
          have hlength := congrArg List.length hprefix
          rw [List.length_map, List.length_map, List.length_take] at hlength
          omega
        exact ⟨hlen.trans hfuel, (strncasecmpEq_bytes hbs hlen).mpr hprefix⟩

/-- `strcasestr` of a string. -/
theorem strcasestr_string {m : Mem} {fuel i : Nat} {word h : List UInt8} (hs : HasString m i h)
    (hne : word ≠ []) (hword : ∀ c ∈ word, lower c ≠ 0) (hfuel : h.length < fuel) :
    strcasestr m word fuel i = .ok (findsWord word h) := by
  cases hfinds : findsWord word h with
  | true => exact strcasestr_found hne hs.byte hs.nonzero (Nat.le_of_lt hfuel) hfinds
  | false =>
    induction h generalizing i fuel with
    | nil =>
      cases fuel with
      | zero => cases hfuel
      | succ fuel =>
        have hnul : m i = 0 := hs.nul
        unfold strcasestr
        rw [if_neg, if_pos hnul]
        rintro ⟨-, hmatch⟩
        have hprefix := (strncasecmpEq_string hs hword).mp hmatch
        rw [List.take_nil, List.map_nil] at hprefix
        exact hne (List.map_eq_nil_iff.mp hprefix.symm)
    | cons b h ih =>
      have hb : m i = b := hs.byte 0 (Nat.zero_lt_succ _)
      have htail : HasString m (i + 1) h := hs.drop (k := 1) (Nat.succ_le_succ (Nat.zero_le _))
      unfold findsWord at hfinds
      rw [Bool.or_eq_false_iff, beq_eq_false_iff_ne] at hfinds
      cases fuel with
      | zero => cases hfuel
      | succ fuel =>
        unfold strcasestr
        rw [if_neg fun hmatch => hfinds.1 ((strncasecmpEq_string hs hword).mp hmatch.2),
          if_neg (hb ▸ hs.nonzero b (List.mem_cons_self ..))]
        exact ih htail (Nat.lt_of_succ_lt_succ hfuel) hfinds.2

/-- Where a byte that is none of the word's goes on to the end of the array, the search fails. -/
theorem strcasestr_filled {m : Mem} {fuel i : Nat} {word : List UInt8} {b : UInt8}
    (hfill : ∀ k, i ≤ k → m k = b) (hb : b ≠ 0) (hne : word ≠ [])
    (hword : ∀ c ∈ word, lower b ≠ lower c) : strcasestr m word fuel i = .error .outOfBounds := by
  induction fuel generalizing i with
  | zero => rfl
  | succ fuel ih =>
    have hi := hfill i (Nat.le_refl i)
    unfold strcasestr
    rw [if_neg, if_neg (hi ▸ hb)]
    · exact ih fun k hk => hfill k (Nat.le_of_succ_le hk)
    · rintro ⟨-, hmatch⟩
      have hlen := strncasecmpEq_stops hmatch (fun c hc => hi ▸ hword c hc) (Nat.le_refl i)
      exact hne (List.length_eq_zero_iff.mp (by omega))

/-- A search that ends, though a byte that is none of the word's fills the array behind, has found
the end of the string or the word. -/
theorem strcasestr_ends {m : Mem} {fuel i : Nat} {word bs : List UInt8} {b : UInt8} {found : Bool}
    (hbs : ∀ k (hk : k < bs.length), m (i + k) = bs[k])
    (hfill : ∀ k, i + bs.length ≤ k → m k = b) (hb : b ≠ 0) (hne : word ≠ [])
    (hword : ∀ c ∈ word, lower b ≠ lower c) (h : strcasestr m word fuel i = .ok found) :
    0 ∈ bs ∨ findsWord word bs = true := by
  induction bs generalizing i fuel with
  | nil =>
    have hfails := @strcasestr_filled m fuel i word b hfill hb hne hword
    rw [hfails] at h
    cases h
  | cons a bs ih =>
    obtain ⟨ha, htail⟩ := bytes_cons hbs
    rw [findsWord, Bool.or_eq_true, beq_iff_eq]
    cases fuel with
    | zero => cases h
    | succ fuel =>
      unfold strcasestr at h
      split at h
      · rename_i hmatch
        have hlast := hfill (i + (a :: bs).length) (Nat.le_refl _)
        have hlen := strncasecmpEq_stops hmatch.2 (fun c hc => hlast ▸ hword c hc)
          (Nat.le_add_right ..)
        exact .inr (.inl ((strncasecmpEq_bytes hbs (Nat.le_of_add_le_add_left hlen)).mp hmatch.2))
      split at h
      · rename_i hnul
        rw [ha] at hnul
        exact .inl (hnul ▸ List.mem_cons_self ..)
      · refine (ih htail (fun k hk => ?_) h).imp (List.mem_cons_of_mem a) .inr
        exact hfill k (by rw [List.length_cons]; omega)

/-- What is copied, up to its first NUL. -/
theorem copyWhile_string {m : Mem} {size room i : Nat} {stop : UInt8 → Bool} {h bs : List UInt8}
    (hs : HasString m i h) (hcopy : copyWhile m size stop size room i = .ok bs) :
    (bs.takeWhile fun b => b ≠ 0) = (h.takeWhile fun b => !stop b).take room := by
  induction room generalizing i h bs with
  | zero =>
    unfold copyWhile at hcopy
    split at hcopy
    · cases hcopy
      rfl
    · cases hcopy
  | succ room ih =>
    unfold copyWhile at hcopy
    split at hcopy
    · cases hcopy
    rename_i hsize
    cases h with
    | nil =>
      have hnul : m i = 0 := hs.nul
      split at hcopy
      · cases hcopy
        rfl
      · obtain ⟨tail, -, rfl⟩ := map_ok.mp hcopy
        simp [hnul]
    | cons b h =>
      have hb : m i = b := hs.byte 0 (Nat.zero_lt_succ _)
      have hb0 : b ≠ 0 := hs.nonzero b (List.mem_cons_self ..)
      rw [hb] at hcopy
      split at hcopy
      · rename_i hstop
        have hstopped : stop b = true := hstop.resolve_right hsize
        cases hcopy
        simp [hstopped]
      · rename_i hstop
        have hstopped : stop b = false := by
          simpa using fun hstopped => hstop (Or.inl hstopped)
        obtain ⟨tail, htail, rfl⟩ := map_ok.mp hcopy
        have hword := ih (hs.drop (k := 1) (Nat.succ_le_succ (Nat.zero_le _))) htail
        simp only [List.drop_succ_cons, List.drop_zero] at hword
        simp [hstopped, hb0] at hword ⊢
        exact hword

/-- The bytes that a copy loop takes, whatever it looks at besides. -/
def copied (m : Mem) (stop : UInt8 → Bool) (limit : Nat) : Nat → Nat → List UInt8
  | 0, _ => []
  | room + 1, i =>
    if stop (m i) = true ∨ limit ≤ i then [] else m i :: copied m stop limit room (i + 1)

/-- A copy ends when the byte behind what it takes is in the array. -/
theorem copyWhile_ok_iff {m : Mem} {size limit room i : Nat} {stop : UInt8 → Bool}
    {bs : List UInt8} : copyWhile m size stop limit room i = .ok bs ↔
      copied m stop limit room i = bs ∧ i + bs.length < size := by
  induction room generalizing i bs with
  | zero =>
    unfold copyWhile copied
    split
    · rename_i hsize
      refine ⟨?_, fun h => congrArg Except.ok h.1⟩
      rintro ⟨⟩
      exact ⟨rfl, hsize⟩
    · rename_i hsize
      refine iff_of_false nofun ?_
      rintro ⟨rfl, h⟩
      exact hsize h
  | succ room ih =>
    unfold copyWhile copied
    split
    · rename_i hsize
      refine iff_of_false nofun ?_
      rintro ⟨-, h⟩
      omega
    rename_i hsize
    split
    · refine ⟨?_, fun h => congrArg Except.ok h.1⟩
      rintro ⟨⟩
      exact ⟨rfl, Nat.lt_of_not_le hsize⟩
    · constructor
      · intro h
        obtain ⟨tail, htail, rfl⟩ := map_ok.mp h
        obtain ⟨rfl, hlen⟩ := ih.mp htail
        refine ⟨rfl, ?_⟩
        rw [List.length_cons]
        omega
      · rintro ⟨rfl, hlen⟩
        rw [List.length_cons] at hlen
        exact map_ok.mpr ⟨_, ih.mpr ⟨rfl, by omega⟩, rfl⟩

theorem copied_of_le {m : Mem} {stop : UInt8 → Bool} {limit room i : Nat} (h : limit ≤ i) :
    copied m stop limit room i = [] := by
  cases room with
  | zero => rfl
  | succ room => exact if_pos (.inr h)

theorem copied_length_le (m : Mem) (stop : UInt8 → Bool) (limit room i : Nat) :
    (copied m stop limit room i).length ≤ room := by
  induction room generalizing i with
  | zero => exact Nat.le_refl 0
  | succ room ih =>
    unfold copied
    split
    · exact Nat.zero_le _
    · exact Nat.succ_le_succ (ih (i + 1))

/-- A copy from bytes at whose end it is stopped, if not before. -/
theorem copied_bytes {m : Mem} {stop : UInt8 → Bool} {limit room i : Nat} {bs : List UInt8}
    (hbs : ∀ k (hk : k < bs.length), m (i + k) = bs[k]) (hlimit : i + bs.length ≤ limit)
    (hend : limit = i + bs.length ∨ room ≤ bs.length ∨ ∃ b ∈ bs, stop b = true) :
    copied m stop limit room i = (bs.takeWhile fun b => !stop b).take room := by
  induction bs generalizing i room with
  | nil =>
    rcases hend with hend | hend | ⟨b, hb, -⟩
    · have hstop : limit ≤ i := Nat.le_of_eq hend
      rw [copied_of_le hstop, List.takeWhile_nil, List.take_nil]
    · obtain rfl : room = 0 := Nat.le_zero.mp hend
      rfl
    · cases hb
  | cons b bs ih =>
    obtain ⟨hb, htail⟩ := bytes_cons hbs
    rw [List.length_cons] at hlimit hend
    cases room with
    | zero => rfl
    | succ room =>
      unfold copied
      rw [hb]
      by_cases hstop : stop b = true
      · rw [if_pos (.inl hstop), List.takeWhile_cons_of_neg (by simp [hstop])]
        rfl
      · have hgoes : ¬ (stop b = true ∨ limit ≤ i) := by
          rintro (hs | hl)
          · exact hstop hs
          · omega
        have hrest : limit = i + 1 + bs.length ∨ room ≤ bs.length ∨ ∃ b ∈ bs, stop b = true := by
          rcases hend with hend | hend | ⟨c, hc, hstopc⟩
          · exact .inl (by omega)
          · exact .inr (.inl (Nat.le_of_succ_le_succ hend))
          · rcases List.mem_cons.mp hc with rfl | hc
            · exact absurd hstopc hstop
            · exact .inr (.inr ⟨c, hc, hstopc⟩)
        rw [if_neg hgoes, List.takeWhile_cons_of_pos (by simp [hstop]),
          ih htail (by omega) hrest, List.take_succ_cons]

/-- `atol` of a string. -/
def atolList (h : List UInt8) : Int :=
  let ds := h.dropWhile isSpace
  match ds with
  | [] => 0
  | b :: rest =>
    if b = 45 then max (-(decimal (rest.takeWhile isDigit) : Int)) (-2 ^ 63)
    else if b = 43 then min (decimal (rest.takeWhile isDigit) : Int) (2 ^ 63 - 1)
    else min (decimal (ds.takeWhile isDigit) : Int) (2 ^ 63 - 1)

/-- The digits from the start of a string on. -/
theorem digits_string {m : Mem} (size : Nat) {i : Nat} {h : List UInt8} (hs : HasString m i h)
    (hsize : i + h.length < size) :
    ∃ stop, scanFrom m size (fun b => !isDigit b) i = .ok stop ∧
      slice m i (stop - i) = h.takeWhile isDigit := by
  refine ⟨i + (h.takeWhile isDigit).length, ?_, ?_⟩
  · rw [scanFrom_string _ hs hsize]
    simp only [Bool.not_not]
  · rw [Nat.add_sub_cancel_left, slice_string hs (List.takeWhile_prefix _).length_le,
      take_takeWhile]

theorem atol_string {m : Mem} {size i : Nat} {h : List UInt8} (hs : HasString m i h)
    (hsize : i + h.length < size) : atol m size i = .ok (atolList h) := by
  have hscan : scanFrom m size (fun b => !isSpace b) i =
      .ok (i + (h.takeWhile isSpace).length) := by
    rw [scanFrom_string _ hs hsize]
    simp only [Bool.not_not]
  have hds := hs.dropWhile isSpace
  have hlen := length_dropWhile isSpace h
  have hj : i + (h.takeWhile isSpace).length + (h.dropWhile isSpace).length < size := by omega
  unfold atol atolList
  simp only [hscan, bind, Except.bind]
  generalize h.dropWhile isSpace = ds at hds hj
  generalize i + (h.takeWhile isSpace).length = j at hds hj
  cases ds with
  | nil =>
    have h0 : m j = 0 := hds.nul
    obtain ⟨stop, hstop, hslice⟩ := digits_string size hds hj
    have hsign : ¬ (m j = 43 ∨ m j = 45) := by
      rw [h0]
      decide
    have hneg : ¬ m j = 45 := fun h => hsign (Or.inr h)
    simp only [if_neg hsign, hstop, hslice, if_neg hneg]
    rfl
  | cons b rest =>
    have hb : m j = b := hds.byte 0 (by simp)
    have hrest : HasString m (j + 1) rest := hds.drop (k := 1) (by simp)
    rw [List.length_cons] at hj
    by_cases h45 : b = 45
    · obtain ⟨stop, hstop, hslice⟩ := digits_string size hrest (by omega)
      simp only [hb, h45, or_true, if_true, hstop, hslice]
      rfl
    by_cases h43 : b = 43
    · obtain ⟨stop, hstop, hslice⟩ := digits_string size hrest (by omega)
      have hne : ¬ (43 : UInt8) = 45 := by decide
      simp only [hb, h43, true_or, if_true, hstop, hslice, if_neg hne]
      rfl
    · obtain ⟨stop, hstop, hslice⟩ := digits_string size hds hj
      have hsign : ¬ (b = 43 ∨ b = 45) := by
        rintro (h | h)
        · exact h43 h
        · exact h45 h
      simp only [hb, if_neg hsign, if_neg h45, if_neg h43, hstop, hslice]
      rfl

theorem not_isSpace_of_isDigit {b : UInt8} (h : isDigit b = true) : isSpace b = false := by
  simp only [isDigit, Bool.and_eq_true, decide_eq_true_eq] at h
  have hlow : 48 ≤ b.toNat := UInt8.le_iff_toNat_le.mp h.1
  rw [Bool.eq_false_iff]
  intro hspace
  simp only [isSpace, Bool.or_eq_true, beq_iff_eq, Bool.and_eq_true, decide_eq_true_eq] at hspace
  rcases hspace with rfl | ⟨-, hhigh⟩
  · exact absurd hlow (by decide)
  · have hle : b.toNat ≤ 13 := UInt8.le_iff_toNat_le.mp hhigh
    omega

/-- `atol` of digits behind blanks. -/
theorem atolList_digits {blanks ds rest : List UInt8} (hblanks : ∀ b ∈ blanks, isSpace b = true)
    (hds : ∀ b ∈ ds, isDigit b = true) (hrest : rest.takeWhile isDigit = [])
    (hstop : ds = [] → rest.dropWhile isSpace = []) :
    atolList (blanks ++ ds ++ rest) = min (decimal ds : Int) (2 ^ 63 - 1) := by
  unfold atolList
  rw [List.append_assoc, List.dropWhile_append_of_pos hblanks]
  cases ds with
  | nil =>
    rw [List.nil_append, hstop rfl]
    rfl
  | cons b ds =>
    have hb := hds b (List.mem_cons_self ..)
    have hspace := not_isSpace_of_isDigit hb
    have hword : (b :: ds ++ rest).takeWhile isDigit = b :: ds := by
      rw [List.takeWhile_append_of_pos hds, hrest, List.append_nil]
    rw [List.cons_append, List.dropWhile_cons_of_neg (by simp [hspace])]
    simp only
    rw [if_neg, if_neg]
    · rw [← List.cons_append, hword]
    · rintro rfl
      cases hb
    · rintro rfl
      cases hb

end TinyHTTP.Lib
