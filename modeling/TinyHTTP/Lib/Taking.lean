import Mathlib.Data.List.TakeDrop

/-!
# TinyHTTP — calls that take a part of their bytes

`write` and its kind hand bytes to a file or a socket, which may take only some of
them, or none, and then the call returns -1.

* `Taking.eq_self_iff` — when everything has been taken.
-/

namespace TinyHTTP.Lib

/-- How many of its bytes a call can place; on a return value of -1 it has placed none. -/
inductive Taking where
  | upTo (n : Nat)
  | eagain
  | error
  deriving DecidableEq, Repr

/-- The bytes that are placed; `none` is a return value of -1. -/
def Taking.of (t : Taking) (bs : List UInt8) : Option (List UInt8) :=
  match t with
  | .upTo n => some (bs.take n)
  | .eagain => none
  | .error => none

/-- The call returns -1. -/
def Taking.Fails (t : Taking) : Prop := t = .eagain ∨ t = .error

/-- The call places all of `n` bytes. -/
def Taking.All (t : Taking) (n : Nat) : Prop := ∃ room, t = .upTo room ∧ n ≤ room

variable {t : Taking} {bs taken : List UInt8}

/-- A call that returns -1 has nothing to say of its bytes. -/
theorem Taking.of_eq_none_iff : t.of bs = none ↔ t.Fails := by
  cases t <;> simp [Taking.of, Taking.Fails]

/-- What is placed is a beginning of the bytes. -/
theorem Taking.isPrefix (h : t.of bs = some taken) : taken <+: bs := by
  cases t with
  | upTo room =>
    obtain rfl : bs.take room = taken := Option.some.inj h
    exact List.take_prefix room bs
  | eagain => cases h
  | error => cases h

/-- What is placed is everything exactly if there is room for it. -/
theorem Taking.eq_self_iff (h : t.of bs = some taken) : taken = bs ↔ t.All bs.length := by
  cases t with
  | upTo room =>
    obtain rfl : bs.take room = taken := Option.some.inj h
    rw [List.take_eq_self_iff]
    constructor
    · intro hle
      exact ⟨room, rfl, hle⟩
    · rintro ⟨_, hroom, hle⟩
      cases hroom
      exact hle
  | eagain => cases h
  | error => cases h

/-- Room for all of them places all of them. -/
theorem Taking.of_all (h : t.All bs.length) : t.of bs = some bs := by
  obtain ⟨room, rfl, hle⟩ := h
  exact congrArg some (List.take_of_length_le hle)

theorem Taking.not_fails_of_some (h : t.of bs = some taken) : ¬ t.Fails := by
  intro hfails
  rw [of_eq_none_iff.mpr hfails] at h
  cases h

theorem Taking.not_all_of_fails {n : Nat} (h : t.Fails) : ¬ t.All n := by
  rintro ⟨room, rfl, _⟩
  rcases h with h | h <;> cases h

end TinyHTTP.Lib
