import Mathlib.Logic.Relation
import Mathlib.Tactic.TypeStar

/-!
# TinyHTTP — programs between two streams

A program that reads one stream and writes another, an element at a time, and what it
does with all of its input before it. What it has read and written at any time depends
on the input only, so two runs differ in how far they have come.

* `Leads.comparable` — of two places that a program comes to, one leads to the other.
* `Halts.unique` — it ends in one way.
* `Leads.unread_le`, `Leads.written_le` — it takes nothing back.
-/

namespace TinyHTTP.Lib

variable {Q α : Type*}

/-- What a program does next. -/
inductive Turn (Q α : Type*)
  | exit
  | write (a : α) (q : Q)
  /-- `none` is the end of the input. -/
  | read (k : Option α → Q)

/-- A program by itself: where it is, what it has not read yet, and what it has written. -/
structure Alone (Q α : Type*) where
  state : Q
  unread : List α
  written : List α
  deriving DecidableEq

/-- The next turn. The program waits at the end of its input: there may be more to come. -/
def advance (p : Q → Turn Q α) (c : Alone Q α) : Option (Alone Q α) :=
  match p c.state with
  | .exit => none
  | .write a q => some { c with state := q, written := c.written ++ [a] }
  | .read k =>
    match c.unread with
    | [] => none
    | a :: unread => some { c with state := k (some a), unread }

/-- Turns of the program lead from the one to the other. -/
def Leads (p : Q → Turn Q α) : Alone Q α → Alone Q α → Prop :=
  Relation.ReflTransGen fun c d => advance p c = some d

/-- The program ends, in `d`. -/
def Halts (p : Q → Turn Q α) (c d : Alone Q α) : Prop := Leads p c d ∧ p d.state = .exit

/-- The program is `n` turns from its end. -/
inductive HaltsIn (p : Q → Turn Q α) : Nat → Alone Q α → Prop
  | exit {c : Alone Q α} (h : p c.state = .exit) : HaltsIn p 0 c
  | turn {n : Nat} {c d : Alone Q α} (h : advance p c = some d) (hd : HaltsIn p n d) :
      HaltsIn p (n + 1) c

section
variable {p : Q → Turn Q α} {c d e : Alone Q α}

-- ---------------------------------------------------------------------------
-- One turn
-- ---------------------------------------------------------------------------

/-- A program that has ended takes no turn. -/
theorem advance_exit (h : p c.state = .exit) : advance p c = none := by
  rw [advance, h]

theorem advance_write {a : α} {q : Q} (h : p c.state = .write a q) :
    advance p c = some { c with state := q, written := c.written ++ [a] } := by
  rw [advance, h]

theorem advance_read {k : Option α → Q} {a : α} {unread : List α} (h : p c.state = .read k)
    (hunread : c.unread = a :: unread) :
    advance p c = some { c with state := k (some a), unread } := by
  rw [advance, h, hunread]

/-- A turn reads an element or writes one. -/
theorem advance_cases (h : advance p c = some d) :
    (∃ a q, p c.state = .write a q ∧ d.unread = c.unread ∧ d.written = c.written ++ [a]) ∨
    ∃ k a, p c.state = .read k ∧ c.unread = a :: d.unread ∧ d.written = c.written := by
  unfold advance at h
  split at h
  · cases h
  · rename_i a q hturn
    cases h
    exact .inl ⟨a, q, hturn, rfl, rfl⟩
  · rename_i k hturn
    split at h
    · cases h
    · rename_i a unread hunread
      cases h
      exact .inr ⟨k, a, hturn, hunread, rfl⟩

-- ---------------------------------------------------------------------------
-- Many turns
-- ---------------------------------------------------------------------------

theorem Leads.refl (c : Alone Q α) : Leads p c c := Relation.ReflTransGen.refl

theorem Leads.turn (h : Leads p c d) (hd : advance p d = some e) : Leads p c e := .tail h hd

/-- What is written stays written. -/
theorem Leads.written_le (h : Leads p c d) : c.written.length ≤ d.written.length := by
  induction h with
  | refl => exact Nat.le_refl _
  | tail _ hd ih =>
    rcases advance_cases hd with ⟨a, q, -, -, hwritten⟩ | ⟨k, a, -, -, hwritten⟩
    · rw [hwritten, List.length_append]
      omega
    · rwa [hwritten]

/-- What has been read is not read again. -/
theorem Leads.unread_le (h : Leads p c d) : d.unread.length ≤ c.unread.length := by
  induction h with
  | refl => exact Nat.le_refl _
  | tail _ hd ih =>
    rcases advance_cases hd with ⟨a, q, -, hunread, -⟩ | ⟨k, a, -, hunread, -⟩
    · rwa [hunread]
    · rw [hunread, List.length_cons] at ih
      omega

/-- What the program does is settled by its input. -/
theorem Leads.comparable (hd : Leads p c d) (he : Leads p c e) : Leads p d e ∨ Leads p e d :=
  Relation.ReflTransGen.total_of_right_unique
    (fun _ _ _ h₁ h₂ => Option.some.inj (h₁.symm.trans h₂)) hd he

/-- The first of the turns. -/
theorem Leads.first (h : Leads p c e) (hd : advance p c = some d) : c = e ∨ Leads p d e := by
  rcases h.cases_head with heq | ⟨d', hd', h⟩
  · exact .inl heq
  · rw [hd] at hd'
    cases hd'
    exact .inr h

/-- Nothing comes behind the end. -/
theorem Leads.of_exit (h : Leads p c d) (hexit : p c.state = .exit) : d = c := by
  rcases h.cases_head with heq | ⟨d', hd', -⟩
  · exact heq.symm
  · rw [advance_exit hexit] at hd'
    cases hd'

/-- Every place is on the way to the end. -/
theorem Halts.from (h : Halts p c e) (hd : Leads p c d) : Halts p d e := by
  refine ⟨?_, h.2⟩
  rcases h.1.comparable hd with hed | hde
  · rw [hed.of_exit h.2]
    exact .refl _
  · exact hde

/-- A program run alone ends in one way only. -/
theorem Halts.unique (hd : Halts p c d) (he : Halts p c e) : e = d :=
  (he.from hd.1).1.of_exit hd.2

/-- More is unread before a turn that reads than at the end. -/
theorem Halts.unread_lt (h : Halts p c e) {k : Option α → Q} (hturn : p c.state = .read k) :
    e.unread.length < c.unread.length := by
  obtain ⟨hleads, hexit⟩ := h
  rcases hleads.cases_head with rfl | ⟨d, hd, hleads⟩
  · cases hturn.symm.trans hexit
  · have hle : e.unread.length ≤ d.unread.length := Leads.unread_le hleads
    rcases advance_cases hd with ⟨a, q, hwrite, -, -⟩ | ⟨k', a, -, hunread, -⟩
    · cases hturn.symm.trans hwrite
    · rw [hunread, List.length_cons]
      omega

/-- Less is written before a turn that writes than at the end. -/
theorem Halts.lt_written (h : Halts p c e) {a : α} {q : Q} (hturn : p c.state = .write a q) :
    c.written.length < e.written.length := by
  obtain ⟨hleads, hexit⟩ := h
  rcases hleads.cases_head with rfl | ⟨d, hd, hleads⟩
  · cases hturn.symm.trans hexit
  · have hle : d.written.length ≤ e.written.length := Leads.written_le hleads
    rw [advance_write hturn] at hd
    cases hd
    rw [List.length_append, List.length_singleton] at hle
    omega

/-- And after so many turns. -/
theorem Halts.haltsIn (h : Halts p c d) : ∃ n, HaltsIn p n c := by
  obtain ⟨hleads, hexit⟩ := h
  induction hleads using Relation.ReflTransGen.head_induction_on with
  | refl => exact ⟨0, .exit hexit⟩
  | head hturn _ ih =>
    obtain ⟨n, hn⟩ := ih
    exact ⟨n + 1, .turn hturn hn⟩

theorem HaltsIn.next {n : Nat} (h : HaltsIn p n c) (hd : advance p c = some d) :
    ∃ m, n = m + 1 ∧ HaltsIn p m d := by
  cases h with
  | exit hexit =>
    rw [advance_exit hexit] at hd
    cases hd
  | turn hturn hn =>
    rw [hturn] at hd
    cases hd
    exact ⟨_, rfl, hn⟩

end

end TinyHTTP.Lib
