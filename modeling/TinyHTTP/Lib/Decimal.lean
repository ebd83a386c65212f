import Mathlib.Tactic.Ring
import TinyHTTP.Lib.Memory

/-!
# TinyHTTP — printed numbers

What `printf` makes of an `int`, and that reading the digits back gives the
number (`decimal_digits`), so that two numbers are never printed alike
(`formatInt_inj`).
-/

namespace TinyHTTP.Lib

/-- `%d` of a number that is not negative. -/
def digits (n : Nat) : List UInt8 := (Nat.toDigits 10 n).map fun c => c.toNat.toUInt8

/-- `%d` -/
def formatInt (n : Int) : List UInt8 :=
  if n < 0 then 45 :: digits n.natAbs else digits n.natAbs

/-- `%0wd` of a number that is not negative. -/
def padded (w n : Nat) : List UInt8 := List.replicate (w - (digits n).length) 48 ++ digits n

theorem digit_toNat {c : Char} (h : c.isDigit = true) : c.toNat.toUInt8.toNat = c.toNat := by
  have hle : c.toNat ≤ 57 := by
    simp only [Char.isDigit, Bool.and_eq_true, decide_eq_true_eq] at h
    exact UInt32.le_iff_toNat_le.mp h.2
  rw [UInt8.toNat_ofNat']
  omega

theorem isDigit_of_mem_digits {n : Nat} {b : UInt8} (h : b ∈ digits n) : isDigit b = true := by
  obtain ⟨c, hc, rfl⟩ := List.mem_map.mp h
  have hd : c.isDigit = true := Nat.isDigit_of_mem_toDigits (by decide) (by decide) hc
  have hn := digit_toNat hd
  simp only [Char.isDigit, Bool.and_eq_true, decide_eq_true_eq] at hd
  have h₁ : 48 ≤ c.toNat := UInt32.le_iff_toNat_le.mp hd.1
  have h₂ : c.toNat ≤ 57 := UInt32.le_iff_toNat_le.mp hd.2
  simp only [isDigit, Bool.and_eq_true, decide_eq_true_eq]
  constructor
  · rw [UInt8.le_iff_toNat_le, hn]
    exact h₁
  · rw [UInt8.le_iff_toNat_le, hn]
    exact h₂

/-- The value of the digits, read by any accumulator. -/
theorem decimal_chars (cs : List Char) (hcs : ∀ c ∈ cs, c.isDigit = true) (v : Nat) :
    (cs.map fun c => c.toNat.toUInt8).foldl (fun v b => 10 * v + (b.toNat - 48)) v =
      Nat.ofDigitChars 10 cs v := by
  induction cs generalizing v with
  | nil => rfl
  | cons c cs ih =>
    rw [List.map_cons, List.foldl_cons, digit_toNat (hcs c (List.mem_cons_self ..)),
      ih fun c' hc' => hcs c' (List.mem_cons_of_mem _ hc')]
    rfl

/-- **Round trip.** -/
theorem decimal_digits (n : Nat) : decimal (digits n) = n := by
  have h := decimal_chars (Nat.toDigits 10 n)
    (fun c hc => Nat.isDigit_of_mem_toDigits (by decide) (by decide) hc) 0
  exact h.trans Nat.ofDigitChars_ten_toDigits

/-- The value of digits behind others. -/
theorem foldl_decimal (v : Nat) (ds : List UInt8) :
    ds.foldl (fun v b => 10 * v + (b.toNat - 48)) v = v * 10 ^ ds.length + decimal ds := by
  unfold decimal
  induction ds generalizing v with
  | nil => simp
  | cons b ds ih =>
    rw [List.foldl_cons, List.foldl_cons, ih, ih (10 * 0 + _), List.length_cons, pow_succ]
    ring

theorem decimal_cons (b : UInt8) (ds : List UInt8) :
    decimal (b :: ds) = (b.toNat - 48) * 10 ^ ds.length + decimal ds := by
  rw [decimal, List.foldl_cons, foldl_decimal, Nat.mul_zero, Nat.zero_add]

/-- Only a zero adds nothing in front. -/
theorem decimal_cons_eq_iff {b : UInt8} (hb : isDigit b = true) (ds : List UInt8) :
    decimal ds = decimal (b :: ds) ↔ b = 48 := by
  have hlow : 48 ≤ b.toNat := by
    simp only [isDigit, Bool.and_eq_true, decide_eq_true_eq] at hb
    exact UInt8.le_iff_toNat_le.mp hb.1
  have hpos : 0 < 10 ^ ds.length := by positivity
  rw [decimal_cons]
  constructor
  · intro h
    have hzero : (b.toNat - 48) * 10 ^ ds.length = 0 := by omega
    have hfirst : b.toNat - 48 = 0 := by
      rcases Nat.mul_eq_zero.mp hzero with h | h
      · exact h
      · omega
    exact UInt8.toNat_inj.mp (show b.toNat = 48 by omega)
  · rintro rfl
    rw [show (48 : UInt8).toNat - 48 = 0 from rfl, Nat.zero_mul, Nat.zero_add]

/-- A conversion to `int` makes no number larger. -/
theorem toInt32_le {x : Int} (h : 0 ≤ x) : toInt32 x ≤ x := by
  unfold toInt32
  rw [Int.bmod_def]
  split <;> omega

theorem length_digits_iff {n k : Nat} (hk : 0 < k) : (digits n).length ≤ k ↔ n < 10 ^ k := by
  rw [digits, List.length_map]
  exact Nat.length_toDigits_le_iff (by decide) hk

theorem digits_inj {m n : Nat} (h : digits m = digits n) : m = n := by
  rw [← decimal_digits m, h, decimal_digits]

theorem isDigit_of_mem_padded {w n : Nat} {b : UInt8} (h : b ∈ padded w n) : isDigit b = true := by
  rcases List.mem_append.mp h with h | h
  · obtain rfl : b = 48 := List.eq_of_mem_replicate h
    rfl
  · exact isDigit_of_mem_digits h

theorem length_padded {w n : Nat} (hw : 0 < w) (h : n < 10 ^ w) : (padded w n).length = w := by
  have hlen := (length_digits_iff hw).mpr h
  rw [padded, List.length_append, List.length_replicate]
  omega

/-- Zeros in front do not count. -/
theorem decimal_padded (w n : Nat) : decimal (padded w n) = n := by
  unfold padded
  induction w - (digits n).length with
  | zero => exact decimal_digits n
  | succ k ih =>
    rw [List.replicate_succ, List.cons_append, ← (decimal_cons_eq_iff rfl _).mpr rfl]
    exact ih

theorem padded_inj {w m n : Nat} (h : padded w m = padded w n) : m = n := by
  rw [← decimal_padded w m, h, decimal_padded]

/-- A number is digits, behind a sign if it is negative. -/
theorem mem_formatInt {x : Int} {b : UInt8} (h : b ∈ formatInt x) : b = 45 ∨ isDigit b = true := by
  unfold formatInt at h
  split at h
  · exact (List.mem_cons.mp h).imp_right isDigit_of_mem_digits
  · exact Or.inr (isDigit_of_mem_digits h)

theorem formatInt_inj {x y : Int} (h : formatInt x = formatInt y) : x = y := by
  have hsign : ∀ {m n : Nat}, 45 :: digits m ≠ digits n := by
    intro m n h
    have hdigit : isDigit 45 = true := isDigit_of_mem_digits (h ▸ List.mem_cons_self ..)
    cases hdigit
  unfold formatInt at h
  split at h <;> split at h
  · have habs := digits_inj (List.cons.inj h).2
    omega
  · exact absurd h hsign
  · exact absurd h.symm hsign
  · have habs := digits_inj h
    omega

/-- An `int` takes eleven characters at most. -/
theorem length_formatInt_le {x : Int} (h : -2 ^ 31 ≤ x) (h' : x < 2 ^ 31) :
    (formatInt x).length ≤ 11 := by
  have hlen : (digits x.natAbs).length ≤ 10 :=
    (length_digits_iff (by omega)).mpr (by omega)
  unfold formatInt
  split
  · rw [List.length_cons]
    omega
  · omega

end TinyHTTP.Lib
