import Mathlib

/-!
# TinyHTTP — byte arrays and the C string functions

A `char` array is a function from indices to bytes together with its size. The
string functions of the C library are scans that stop at a NUL; a scan that
reaches the end of the array is `outOfBounds`, where C has no defined behaviour.

* `scan_congr` — a scan looks at nothing behind the first NUL.
* `writeBytes_append`, `writeBytes_of_lt` — how writes compose and what they
  leave alone.
-/

namespace TinyHTTP.Lib

/-- What C and C++ leave undefined. -/
inductive Fault where
  | nullPointer
  | outOfBounds
  | uninitialized
  | signedOverflow
  deriving DecidableEq, Repr

/-- The bytes of an array, by index. -/
abbrev Mem := Nat → UInt8

/-- The bytes of a string literal. -/
def bytes (s : String) : List UInt8 := s.toList.map fun c => c.toNat.toUInt8

/-- `memcpy(m + i, bs, |bs|)` -/
def writeBytes (m : Mem) (i : Nat) (bs : List UInt8) : Mem := fun j =>
  if i ≤ j then (bs[j - i]?).getD (m j) else m j

/-- The `n` bytes from index `i` on. -/
def slice (m : Mem) (i n : Nat) : List UInt8 := (List.range n).map fun k => m (i + k)

-- ---------------------------------------------------------------------------
-- Scans
-- ---------------------------------------------------------------------------

/-- The first index from `i` on that is NUL or satisfies `p`, among the next `fuel`. -/
def scan (m : Mem) (p : UInt8 → Bool) : Nat → Nat → Option Nat
  | 0, _ => none
  | fuel + 1, i => if m i = 0 ∨ p (m i) then some i else scan m p fuel (i + 1)

/-- A scan from `i` in an array of `size` bytes. -/
def scanFrom (m : Mem) (size : Nat) (p : UInt8 → Bool) (i : Nat) : Except Fault Nat :=
  match scan m p (size - i) i with
  | none => .error .outOfBounds
  | some j => .ok j

/-- `strpbrk(m + i, set)`; `none` is `NULL`. -/
def strpbrk (m : Mem) (size i : Nat) (set : List UInt8) : Except Fault (Option Nat) := do
  let j ← scanFrom m size (fun b => set.contains b) i
  return if m j = 0 then none else some j

/-- `m + i + strspn(m + i, set)` -/
def skipSpan (m : Mem) (size i : Nat) (set : List UInt8) : Except Fault Nat :=
  scanFrom m size (fun b => !set.contains b) i

/-- `strchr(m + i, c)` for `c` other than NUL; `none` is `NULL`. -/
def strchr (m : Mem) (size i : Nat) (c : UInt8) : Except Fault (Option Nat) := do
  let j ← scanFrom m size (fun b => b == c) i
  return if m j = 0 then none else some j

/-- `m + i + strlen(m + i)` -/
def strEnd (m : Mem) (size i : Nat) : Except Fault Nat := scanFrom m size (fun _ => false) i

/-- The bytes of the string at `m + i`, without its NUL. -/
def cstring (m : Mem) (size i : Nat) : Except Fault (List UInt8) := do
  let j ← strEnd m size i
  return slice m i (j - i)

/-- `strrchr(m + i, c)` for `c` other than NUL; `none` is `NULL`. -/
def strrchr (m : Mem) (size i : Nat) (c : UInt8) : Except Fault (Option Nat) := do
  let s ← cstring m size i
  return (s.reverse.idxOf? c).map fun k => i + (s.length - 1 - k)

/-- `while (!stop(m[i]) && i < limit && j < room) dst[j++] = m[i++];`: the bytes copied. -/
def copyWhile (m : Mem) (size : Nat) (stop : UInt8 → Bool) (limit : Nat) :
    Nat → Nat → Except Fault (List UInt8)
  | 0, i => if i < size then .ok [] else .error .outOfBounds
  | room + 1, i =>
    if i ≥ size then .error .outOfBounds
    else if stop (m i) = true ∨ limit ≤ i then .ok []
    else (copyWhile m size stop limit room (i + 1)).map (m i :: ·)

/-- `strncpy(m + i, s, n)`, which pads with NULs and adds none to a string of `n` bytes. -/
def strncpy (m : Mem) (i : Nat) (s : List UInt8) (n : Nat) : Mem :=
  writeBytes m i ((s ++ List.replicate n 0).take n)

/-- `tolower` in the C locale -/
def lower (b : UInt8) : UInt8 := if 65 ≤ b ∧ b ≤ 90 then b + 32 else b

/-- `strncasecmp(m + i, s, |s|) == 0` -/
def strncasecmpEq (m : Mem) (i : Nat) : List UInt8 → Bool
  | [] => true
  | c :: cs => lower (m i) == lower c && strncasecmpEq m (i + 1) cs

/-- `strcasecmp(m + i, s) == 0` -/
def strcasecmpEq (m : Mem) (i : Nat) (s : List UInt8) : Bool := strncasecmpEq m i (s ++ [0])

/-- Whether `strcasestr(m + i, word)` finds `word`, with so many bytes of the array ahead. It gets
to the end of the string only if it does not. -/
def strcasestr (m : Mem) (word : List UInt8) : Nat → Nat → Except Fault Bool
  | 0, _ => .error .outOfBounds
  | fuel + 1, i =>
    if word.length ≤ fuel + 1 ∧ strncasecmpEq m i word = true then .ok true
    else if m i = 0 then .ok false
    else strcasestr m word fuel (i + 1)

-- ---------------------------------------------------------------------------
-- Numbers
-- ---------------------------------------------------------------------------

/-- Conversion to a 32-bit `int`. -/
def toInt32 (x : Int) : Int := x.bmod (2 ^ 32)

def isSpace (b : UInt8) : Bool := b == 32 || (9 ≤ b && b ≤ 13)
def isDigit (b : UInt8) : Bool := 48 ≤ b && b ≤ 57

/-- The value of a string of decimal digits. -/
def decimal (ds : List UInt8) : Nat := ds.foldl (fun v b => 10 * v + (b.toNat - 48)) 0

/-- `atol(m + i)`, which `strtol` saturates at the bounds of a 64-bit `long`. -/
def atol (m : Mem) (size i : Nat) : Except Fault Int := do
  let j ← scanFrom m size (fun b => !isSpace b) i
  let start := if m j = 43 ∨ m j = 45 then j + 1 else j
  let stop ← scanFrom m size (fun b => !isDigit b) start
  let v : Int := decimal (slice m start (stop - start))
  return if m j = 45 then max (-v) (-2 ^ 63) else min v (2 ^ 63 - 1)

/-- A computation that ends well has a first part that does. -/
theorem bind_ok {α β : Type} {x : Except Fault α} {f : α → Except Fault β} {r : β} :
    (x >>= f) = .ok r ↔ ∃ a, x = .ok a ∧ f a = .ok r := by
  cases x with
  | error e => simp [bind, Except.bind]
  | ok a => simp [bind, Except.bind]

/-- A computation that fails does so in its first part or in its second. -/
theorem bind_error {α β : Type} {x : Except Fault α} {f : α → Except Fault β} {e : Fault} :
    (x >>= f) = .error e ↔ x = .error e ∨ ∃ a, x = .ok a ∧ f a = .error e := by
  cases x with
  | error e' => simp [bind, Except.bind]
  | ok a => simp [bind, Except.bind]

theorem map_ok {α β : Type} {x : Except Fault α} {f : α → β} {r : β} :
    x.map f = .ok r ↔ ∃ a, x = .ok a ∧ f a = r := by
  cases x with
  | error e => simp [Except.map]
  | ok a => simp [Except.map]

/-! ## Numbers -/

theorem le_toInt32 (x : Int) : -2 ^ 31 ≤ toInt32 x := by
  have := @Int.le_bmod x (2 ^ 32) (by decide)
  unfold toInt32
  omega

theorem toInt32_lt (x : Int) : toInt32 x < 2 ^ 31 := by
  have := @Int.bmod_lt x (2 ^ 32) (by decide)
  unfold toInt32
  omega

/-- A number below `2 ^ 31` is an `int`. -/
theorem toInt32_of_lt {n : Nat} (h : n < 2 ^ 31) : toInt32 n = n := by
  unfold toInt32
  rw [Int.bmod_def]
  omega

/-! ## Writes -/

theorem writeBytes_of_lt {m : Mem} {i j : Nat} {bs : List UInt8} (h : j < i) :
    writeBytes m i bs j = m j := if_neg (Nat.not_le_of_lt h)

theorem writeBytes_of_ge {m : Mem} {i j : Nat} {bs : List UInt8} (h : i + bs.length ≤ j) :
    writeBytes m i bs j = m j := by
  unfold writeBytes
  rw [if_pos (by omega), List.getElem?_eq_none (by omega)]
  rfl

theorem writeBytes_of_mem {m : Mem} {i k : Nat} {bs : List UInt8} (h : k < bs.length) :
    writeBytes m i bs (i + k) = bs[k] := by
  unfold writeBytes
  rw [if_pos (by omega), show i + k - i = k by omega, List.getElem?_eq_getElem h]
  rfl

/-- A byte behind a write is the old one, or one of those that are written. -/
theorem writeBytes_cases (m : Mem) (i : Nat) (bs : List UInt8) (j : Nat) :
    writeBytes m i bs j = m j ∨ writeBytes m i bs j ∈ bs := by
  by_cases h₁ : j < i
  · exact Or.inl (writeBytes_of_lt h₁)
  by_cases h₂ : j < i + bs.length
  · have hj : j = i + (j - i) := by omega
    rw [hj, writeBytes_of_mem (by omega)]
    exact Or.inr (List.getElem_mem _)
  · exact Or.inl (writeBytes_of_ge (by omega))

@[simp] theorem writeBytes_nil (m : Mem) (i : Nat) : writeBytes m i [] = m := by
  funext j
  simp [writeBytes]

/-- Writing `as ++ bs` is writing `as`, then `bs` behind it. -/
theorem writeBytes_append (m : Mem) (i : Nat) (as bs : List UInt8) :
    writeBytes m i (as ++ bs) = writeBytes (writeBytes m i as) (i + as.length) bs := by
  funext j
  by_cases h₁ : j < i
  · rw [writeBytes_of_lt h₁, writeBytes_of_lt (by omega), writeBytes_of_lt h₁]
  by_cases h₂ : j < i + as.length
  · rw [writeBytes_of_lt h₂]
    have hk : j - i < as.length := by omega
    have hj : j = i + (j - i) := by omega
    rw [hj, writeBytes_of_mem (by rw [List.length_append]; omega), writeBytes_of_mem hk,
      List.getElem_append_left hk]
  by_cases h₃ : j < i + as.length + bs.length
  · have hk : j - (i + as.length) < bs.length := by omega
    have hj : j = i + as.length + (j - (i + as.length)) := by omega
    rw [hj, writeBytes_of_mem hk, Nat.add_assoc,
      writeBytes_of_mem (by rw [List.length_append]; omega), List.getElem_append_right (by omega)]
    simp
  · rw [writeBytes_of_ge (by rw [List.length_append]; omega), writeBytes_of_ge (by omega),
      writeBytes_of_ge (by omega)]

/-- A write that covers an earlier one. -/
theorem writeBytes_cover (m : Mem) (i : Nat) {as bs : List UInt8} (h : as.length ≤ bs.length) :
    writeBytes (writeBytes m i as) i bs = writeBytes m i bs := by
  funext j
  by_cases h₁ : j < i
  · rw [writeBytes_of_lt h₁, writeBytes_of_lt h₁, writeBytes_of_lt h₁]
  by_cases h₂ : j < i + bs.length
  · have hj : j = i + (j - i) := by omega
    rw [hj, writeBytes_of_mem (by omega), writeBytes_of_mem (by omega)]
  · rw [writeBytes_of_ge (by omega), writeBytes_of_ge (by omega), writeBytes_of_ge (by omega)]

/-- A write over the end of an earlier one. -/
theorem writeBytes_over (m : Mem) (i : Nat) (as : List UInt8) {bs cs : List UInt8}
    (h : bs.length ≤ cs.length) :
    writeBytes (writeBytes m i (as ++ bs)) (i + as.length) cs = writeBytes m i (as ++ cs) := by
  rw [writeBytes_append, writeBytes_cover _ _ h, ← writeBytes_append]

theorem update_eq_writeBytes (m : Mem) (i : Nat) (b : UInt8) :
    Function.update m i b = writeBytes m i [b] := by
  funext j
  by_cases hj : j = i
  · subst hj
    have hmem : writeBytes m j [b] (j + 0) = b := writeBytes_of_mem (Nat.zero_lt_succ 0)
    rw [Function.update_self]
    exact hmem.symm
  · rw [Function.update_of_ne hj]
    rcases Nat.lt_or_gt_of_ne hj with hlt | hgt
    · rw [writeBytes_of_lt hlt]
    · rw [writeBytes_of_ge hgt]

theorem strncpy_strncpy (m : Mem) (i : Nat) (s t : List UInt8) (n : Nat) :
    strncpy (strncpy m i s n) i t n = strncpy m i t n :=
  writeBytes_cover m i (by simp)

/-- Writes to different places commute. -/
theorem writeBytes_comm {m : Mem} {i j : Nat} {as bs : List UInt8} (h : i + as.length ≤ j) :
    writeBytes (writeBytes m i as) j bs = writeBytes (writeBytes m j bs) i as := by
  funext k
  by_cases h₁ : k < i
  · rw [writeBytes_of_lt (by omega), writeBytes_of_lt h₁, writeBytes_of_lt h₁,
      writeBytes_of_lt (by omega)]
  by_cases h₂ : k < i + as.length
  · have hk : k = i + (k - i) := by omega
    rw [writeBytes_of_lt (by omega), hk, writeBytes_of_mem (by omega), writeBytes_of_mem (by omega)]
  · rw [writeBytes_of_ge (i := i) (by omega)]
    by_cases h₃ : k < j
    · rw [writeBytes_of_lt h₃, writeBytes_of_lt h₃, writeBytes_of_ge (by omega)]
    by_cases h₄ : k < j + bs.length
    · have hk : k = j + (k - j) := by omega
      rw [hk, writeBytes_of_mem (by omega), writeBytes_of_mem (by omega)]
    · rw [writeBytes_of_ge (by omega), writeBytes_of_ge (by omega), writeBytes_of_ge (by omega)]

theorem writeBytes_update_comm {m : Mem} {i j : Nat} {bs : List UInt8} (b : UInt8) (h : j < i) :
    writeBytes (Function.update m j b) i bs = Function.update (writeBytes m i bs) j b := by
  funext k
  by_cases hk : k = j
  · subst hk
    rw [writeBytes_of_lt h, Function.update_self, Function.update_self]
  · rw [Function.update_of_ne hk]
    unfold writeBytes
    rw [Function.update_of_ne hk]

-- ---------------------------------------------------------------------------
-- What a scan looks at
-- ---------------------------------------------------------------------------

/-- Two memories agree below `n`. -/
def SameBelow (n : Nat) (m m' : Mem) : Prop := ∀ j < n, m' j = m j

/-- There is a NUL at or behind `i`, before `n`. -/
def NulBefore (m : Mem) (i n : Nat) : Prop := ∃ k, i ≤ k ∧ k < n ∧ m k = 0

theorem SameBelow.refl (n : Nat) (m : Mem) : SameBelow n m m := fun _ _ => rfl

theorem sameBelow_writeBytes {n i : Nat} (m : Mem) (bs : List UInt8) (h : n ≤ i) :
    SameBelow n m (writeBytes m i bs) := fun _ hj => writeBytes_of_lt (by omega)

theorem NulBefore.congr {m m' : Mem} {i n : Nat} (h : NulBefore m i n) (hs : SameBelow n m m') :
    NulBefore m' i n := by
  obtain ⟨k, hik, hkn, hk⟩ := h
  exact ⟨k, hik, hkn, by rw [hs k hkn, hk]⟩

theorem NulBefore.update {m : Mem} {i n : Nat} (h : NulBefore m i n) (j : Nat) :
    NulBefore (Function.update m j 0) i n := by
  obtain ⟨k, hik, hkn, hk⟩ := h
  refine ⟨k, hik, hkn, ?_⟩
  by_cases hkj : k = j
  · rw [hkj, Function.update_self]
  · rw [Function.update_of_ne hkj, hk]

/-- Between two NULs nothing is lost by a write that ends with a NUL. -/
theorem NulBefore.writeBytes {m : Mem} {i n e : Nat} (h : NulBefore m i n) (bs : List UInt8)
    (he : e + bs.length < n) : NulBefore (writeBytes m e (bs ++ [0])) i n := by
  obtain ⟨k, hik, hkn, hk⟩ := h
  have hlast : Lib.writeBytes m e (bs ++ [0]) (e + bs.length) = 0 := by
    rw [writeBytes_of_mem (by simp)]
    simp
  by_cases h₁ : k < e
  · exact ⟨k, hik, hkn, by rw [writeBytes_of_lt h₁, hk]⟩
  by_cases h₂ : k ≤ e + bs.length
  · exact ⟨e + bs.length, by omega, he, hlast⟩
  · refine ⟨k, hik, hkn, ?_⟩
    rw [writeBytes_of_ge (by simp; omega), hk]

/-- A scan ends at or before the first NUL. -/
theorem scan_spec {m : Mem} {p : UInt8 → Bool} {fuel i j : Nat} (h : scan m p fuel i = some j) :
    i ≤ j ∧ j < i + fuel ∧ (m j = 0 ∨ p (m j)) ∧ ∀ k, i ≤ k → k < j → m k ≠ 0 ∧ ¬ p (m k) := by
  induction fuel generalizing i with
  | zero => cases h
  | succ fuel ih =>
    rw [scan] at h
    split at h
    · rename_i hi
      obtain rfl := Option.some.inj h
      exact ⟨Nat.le_refl _, by omega, hi, fun k h₁ h₂ => by omega⟩
    · rename_i hi
      obtain ⟨h₁, h₂, h₃, h₄⟩ := ih h
      refine ⟨by omega, by omega, h₃, ?_⟩
      intro k hik hkj
      by_cases hk : k = i
      · subst hk
        exact ⟨fun h0 => hi (Or.inl h0), fun hp => hi (Or.inr hp)⟩
      · exact h₄ k (by omega) hkj

theorem scan_isSome {m : Mem} (p : UInt8 → Bool) (fuel : Nat) {i k : Nat} (hik : i ≤ k)
    (hk : k < i + fuel) (hp : m k = 0 ∨ p (m k)) : ∃ j, scan m p fuel i = some j ∧ j ≤ k := by
  induction fuel generalizing i with
  | zero => omega
  | succ fuel ih =>
    rw [scan]
    split
    · exact ⟨i, rfl, hik⟩
    · rename_i hi
      have hne : i ≠ k := by
        rintro rfl
        exact hi hp
      exact ih (by omega) (by omega)

theorem scan_congr {m m' : Mem} {p : UInt8 → Bool} {n fuel i : Nat} (hs : SameBelow n m m')
    (hnul : NulBefore m i n) : scan m' p fuel i = scan m p fuel i := by
  induction fuel generalizing i with
  | zero => rfl
  | succ fuel ih =>
    obtain ⟨k, hik, hkn, hk⟩ := hnul
    rw [scan, scan, hs i (by omega)]
    split
    · rfl
    · rename_i hi
      refine ih ⟨k, ?_, hkn, hk⟩
      have : i ≠ k := by
        rintro rfl
        exact hi (Or.inl hk)
      omega

theorem scanFrom_congr {m m' : Mem} {n : Nat} (size : Nat) (p : UInt8 → Bool) {i : Nat}
    (hs : SameBelow n m m') (hnul : NulBefore m i n) :
    scanFrom m' size p i = scanFrom m size p i := by
  rw [scanFrom, scanFrom, scan_congr hs hnul]

/-- With a NUL in the array a scan succeeds, at or before it. -/
theorem scanFrom_ok {m : Mem} {size n i : Nat} (p : UInt8 → Bool) (hnul : NulBefore m i n)
    (hn : n ≤ size) : ∃ j, scanFrom m size p i = .ok j ∧ i ≤ j ∧ j < n ∧ (m j = 0 ∨ p (m j)) ∧
      ∀ k, i ≤ k → k < j → m k ≠ 0 ∧ ¬ p (m k) := by
  obtain ⟨k, hik, hkn, hk⟩ := hnul
  obtain ⟨j, hj, hjk⟩ := scan_isSome p (size - i) hik (by omega) (Or.inl hk)
  obtain ⟨h₁, -, h₃, h₄⟩ := scan_spec hj
  exact ⟨j, by rw [scanFrom, hj], h₁, by omega, h₃, h₄⟩

theorem scanFrom_spec {m : Mem} {size i j : Nat} {p : UInt8 → Bool}
    (h : scanFrom m size p i = .ok j) : i ≤ j ∧ (j < size) ∧ (m j = 0 ∨ p (m j)) ∧
      ∀ k, i ≤ k → k < j → m k ≠ 0 ∧ ¬ p (m k) := by
  unfold scanFrom at h
  split at h
  · cases h
  · rename_i j' hj
    obtain rfl : j' = j := by
      cases h
      rfl
    obtain ⟨h₁, h₂, h₃, h₄⟩ := scan_spec hj
    exact ⟨h₁, by omega, h₃, h₄⟩

theorem strncasecmpEq_congr {m m' : Mem} {n i : Nat} {s : List UInt8} (hs : SameBelow n m m')
    (hnul : NulBefore m i n) (h0 : ∀ c ∈ s.dropLast, lower c ≠ 0) :
    strncasecmpEq m' i s = strncasecmpEq m i s := by
  induction s generalizing i with
  | nil => rfl
  | cons c cs ih =>
    obtain ⟨k, hik, hkn, hk⟩ := hnul
    rw [strncasecmpEq, strncasecmpEq, hs i (by omega)]
    cases cs with
    | nil => simp [strncasecmpEq]
    | cons d ds =>
      by_cases hi : lower (m i) = lower c
      · have hne : i ≠ k := by
          rintro rfl
          refine h0 c (by simp) ?_
          rw [← hi, hk]
          decide
        rw [ih ⟨k, by omega, hkn, hk⟩]
        intro c' hc'
        exact h0 c' (by simp [List.dropLast, hc'])
      · rw [beq_eq_false_iff_ne.mpr hi]
        rfl

/-- A comparison that succeeds has not gone past a byte that is none of the text's. -/
theorem strncasecmpEq_stops {m : Mem} {i k : Nat} {s : List UInt8}
    (h : strncasecmpEq m i s = true) (hk : ∀ c ∈ s, lower (m k) ≠ lower c) (hik : i ≤ k) :
    i + s.length ≤ k := by
  induction s generalizing i with
  | nil => simpa using hik
  | cons c cs ih =>
    rw [strncasecmpEq, Bool.and_eq_true, beq_iff_eq] at h
    have hne : i ≠ k := by
      rintro rfl
      exact hk c (List.mem_cons_self ..) h.1
    have := ih h.2 (fun c' hc' => hk c' (List.mem_cons_of_mem _ hc')) (by omega)
    rw [List.length_cons]
    omega

/-- A comparison that succeeds against a text without NULs has not gone past a NUL. -/
theorem strncasecmpEq_le {m : Mem} {i k : Nat} {s : List UInt8} (h : strncasecmpEq m i s = true)
    (h0 : ∀ c ∈ s, lower c ≠ 0) (hik : i ≤ k) (hk : m k = 0) : i + s.length ≤ k := by
  refine strncasecmpEq_stops h (fun c hc heq => h0 c hc ?_) hik
  rw [← heq, hk]
  decide

theorem strncasecmpEq_of_strcasecmpEq {m : Mem} {i : Nat} {s : List UInt8}
    (h : strcasecmpEq m i s = true) : strncasecmpEq m i s = true := by
  unfold strcasecmpEq at h
  induction s generalizing i with
  | nil => rfl
  | cons c cs ih =>
    rw [List.cons_append, strncasecmpEq, Bool.and_eq_true] at h
    rw [strncasecmpEq, h.1, ih h.2]
    rfl

theorem slice_congr {m m' : Mem} {n i len : Nat} (hs : SameBelow n m m') (h : i + len ≤ n) :
    slice m' i len = slice m i len := by
  unfold slice
  refine List.map_congr_left ?_
  intro k hk
  have := List.mem_range.mp hk
  exact hs (i + k) (by omega)

/-! ## Slices -/

theorem length_slice (m : Mem) (i n : Nat) : (slice m i n).length = n := by
  rw [slice, List.length_map, List.length_range]

theorem slice_succ (m : Mem) (i n : Nat) : slice m i (n + 1) = m i :: slice m (i + 1) n := by
  simp only [slice, List.range_succ_eq_map, List.map_cons, List.map_map, Nat.add_zero]
  refine congrArg _ (List.map_congr_left fun k _ => ?_)
  exact congrArg m (by omega)

theorem slice_add (m : Mem) (i a b : Nat) :
    slice m i (a + b) = slice m i a ++ slice m (i + a) b := by
  induction a generalizing i with
  | zero => rw [Nat.zero_add, Nat.add_zero]; rfl
  | succ a ih =>
    rw [Nat.add_right_comm, slice_succ, slice_succ, ih, List.cons_append, Nat.add_assoc,
      Nat.add_comm 1]

/-- What has been written can be read. -/
theorem slice_writeBytes (m : Mem) (i : Nat) (bs : List UInt8) :
    slice (writeBytes m i bs) i bs.length = bs := by
  refine List.ext_getElem (length_slice ..) ?_
  intro k h₁ h₂
  simp only [slice, List.getElem_map, List.getElem_range]
  exact writeBytes_of_mem h₂

/-- A write behind what has been written before goes on with it. -/
theorem slice_append (m : Mem) (n : Nat) (bs : List UInt8) :
    slice (writeBytes m n bs) 0 (n + bs.length) = slice m 0 n ++ bs := by
  have hfront : SameBelow n m (writeBytes m n bs) := sameBelow_writeBytes m bs (Nat.le_refl n)
  rw [slice_add, Nat.zero_add, slice_writeBytes, slice_congr hfront (Nat.zero_add n).le]

end TinyHTTP.Lib
