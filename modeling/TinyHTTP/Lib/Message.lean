import TinyHTTP.Lib.Decimal

/-!
# TinyHTTP — HTTP/1.1 responses

A response as a status, a reason, header lines and a body, and the bytes it is
sent as. `Response.bytes_inj`: the bytes of a response tell all of its parts.
-/

namespace TinyHTTP.Lib

def lineEnd : List UInt8 := [13, 10]

/-- A text that can stand on a line. -/
def NoBreak (line : List UInt8) : Prop := ∀ b ∈ line, b ≠ 13 ∧ b ≠ 10

instance (line : List UInt8) : Decidable (NoBreak line) :=
  List.decidableBAll (fun b => b ≠ 13 ∧ b ≠ 10) line

def lines (ls : List (List UInt8)) : List UInt8 := ls.flatMap fun l => l ++ lineEnd

structure Response where
  status : Nat
  reason : List UInt8
  headers : List (List UInt8)
  body : List UInt8

def Response.statusLine (r : Response) : List UInt8 :=
  bytes "HTTP/1.1 " ++ digits r.status ++ 32 :: r.reason

def Response.bytes (r : Response) : List UInt8 :=
  lines (r.statusLine :: r.headers) ++ lineEnd ++ r.body

/-- The value of a `Content-Length` header. -/
def lengthValue (h : List UInt8) : Option (List UInt8) :=
  if (h.take 15).map lower = Lib.bytes "content-length:" then
    some ((h.drop 15).dropWhile fun b => b = 32)
  else none

/-- The parts of the response can be told apart. -/
structure Response.Separable (r : Response) : Prop where
  reason : NoBreak r.reason
  headers : ∀ h ∈ r.headers, h ≠ [] ∧ NoBreak h

/-- The response announces the length of its body. -/
def Response.Announces (r : Response) : Prop :=
  ∃ v, r.headers.filterMap lengthValue = [v] ∧ v ≠ [] ∧ (∀ b ∈ v, isDigit b = true) ∧
    decimal v = r.body.length

structure Response.Complete (r : Response) : Prop extends r.Separable where
  announces : r.Announces

-- ---------------------------------------------------------------------------
-- Taking lines apart
-- ---------------------------------------------------------------------------

theorem line_inj {a b x y : List UInt8} (ha : NoBreak a) (hb : NoBreak b)
    (h : a ++ (lineEnd ++ x) = b ++ (lineEnd ++ y)) : a = b ∧ x = y := by
  induction a generalizing b with
  | nil =>
    cases b with
    | nil => exact ⟨rfl, List.append_cancel_left h⟩
    | cons c b =>
      have hc : c = 13 := by
        have := List.cons_eq_cons.mp h
        exact this.1.symm
      exact absurd hc (hb c (List.mem_cons_self ..)).1
  | cons c a ih =>
    cases b with
    | nil =>
      have hc : c = 13 := (List.cons_eq_cons.mp h).1
      exact absurd hc (ha c (List.mem_cons_self ..)).1
    | cons d b =>
      obtain ⟨rfl, hrest⟩ := List.cons_eq_cons.mp h
      obtain ⟨rfl, hxy⟩ := ih (fun e he => ha e (List.mem_cons_of_mem _ he))
        (fun e he => hb e (List.mem_cons_of_mem _ he)) hrest
      exact ⟨rfl, hxy⟩

theorem lines_cons (l : List UInt8) (ls : List (List UInt8)) :
    lines (l :: ls) = l ++ (lineEnd ++ lines ls) := by
  simp [lines]

/-- A line that is not blank does not start like a blank one. -/
theorem line_not_blank {l x y : List UInt8} (hne : l ≠ []) (hl : NoBreak l) :
    l ++ x ≠ lineEnd ++ y := by
  intro h
  obtain ⟨c, l, rfl⟩ := List.exists_cons_of_ne_nil hne
  have hc : c = 13 := (List.cons_eq_cons.mp h).1
  exact (hl c (List.mem_cons_self ..)).1 hc

/-- Header lines end at the first blank line. -/
theorem lines_inj {ls ls' : List (List UInt8)} {x y : List UInt8}
    (hls : ∀ l ∈ ls, l ≠ [] ∧ NoBreak l) (hls' : ∀ l ∈ ls', l ≠ [] ∧ NoBreak l)
    (h : lines ls ++ (lineEnd ++ x) = lines ls' ++ (lineEnd ++ y)) : ls = ls' ∧ x = y := by
  induction ls generalizing ls' with
  | nil =>
    cases ls' with
    | nil => exact ⟨rfl, List.append_cancel_left h⟩
    | cons l ls' =>
      obtain ⟨hne, hl⟩ := hls' l (List.mem_cons_self ..)
      rw [lines_cons, List.append_assoc] at h
      exact absurd h.symm (line_not_blank hne hl)
  | cons l ls ih =>
    obtain ⟨hne, hl⟩ := hls l (List.mem_cons_self ..)
    cases ls' with
    | nil =>
      rw [lines_cons, List.append_assoc] at h
      exact absurd h (line_not_blank hne hl)
    | cons l' ls' =>
      obtain ⟨-, hl'⟩ := hls' l' (List.mem_cons_self ..)
      rw [lines_cons, lines_cons] at h
      simp only [List.append_assoc] at h
      obtain ⟨rfl, hrest⟩ := line_inj hl hl' h
      obtain ⟨rfl, hxy⟩ := ih (fun k hk => hls k (List.mem_cons_of_mem _ hk))
        (fun k hk => hls' k (List.mem_cons_of_mem _ hk)) hrest
      exact ⟨rfl, hxy⟩

-- ---------------------------------------------------------------------------
-- Taking responses apart
-- ---------------------------------------------------------------------------

/-- The digits of a number end where another byte follows. -/
theorem takeWhile_digits (n : Nat) (rest : List UInt8) :
    (digits n ++ 32 :: rest).takeWhile isDigit = digits n := by
  rw [List.takeWhile_append_of_pos fun b hb => isDigit_of_mem_digits hb,
    List.takeWhile_cons_of_neg (by decide), List.append_nil]

theorem noBreak_digits (n : Nat) : NoBreak (digits n) := by
  intro b hb
  have hd := isDigit_of_mem_digits hb
  constructor
  · rintro rfl
    exact absurd hd (by decide)
  · rintro rfl
    exact absurd hd (by decide)

theorem NoBreak.append {a b : List UInt8} (ha : NoBreak a) (hb : NoBreak b) :
    NoBreak (a ++ b) := by
  intro c hc
  rcases List.mem_append.mp hc with hc | hc
  · exact ha c hc
  · exact hb c hc

theorem noBreak_statusLine {r : Response} (h : NoBreak r.reason) : NoBreak r.statusLine := by
  have hspace : NoBreak [32] := by decide
  have hversion : NoBreak (bytes "HTTP/1.1 ") := by decide
  exact (hversion.append (noBreak_digits _)).append (hspace.append h)

/-- **The bytes of a response tell all of its parts.** -/
theorem Response.bytes_inj {r r' : Response} (hr : r.Separable) (hr' : r'.Separable)
    (h : r.bytes = r'.bytes) : r = r' := by
  obtain ⟨status, reason, headers, body⟩ := r
  obtain ⟨status', reason', headers', body'⟩ := r'
  rw [Response.bytes, Response.bytes, lines_cons, lines_cons] at h
  simp only [List.append_assoc] at h
  obtain ⟨hline, h⟩ := line_inj (noBreak_statusLine hr.reason) (noBreak_statusLine hr'.reason) h
  obtain ⟨hheaders, hbody⟩ := lines_inj hr.headers hr'.headers h
  simp only [Response.statusLine, List.append_assoc] at hline
  have hstatus := List.append_cancel_left hline
  have hdigits : digits status = digits status' := by
    rw [← takeWhile_digits status reason, hstatus, takeWhile_digits]
  have hnum : status = status' := by
    rw [← decimal_digits status, hdigits, decimal_digits]
  have hreason : reason = reason' := by
    rw [hdigits] at hstatus
    exact (List.cons_eq_cons.mp (List.append_cancel_left hstatus)).2
  simp only at hheaders hbody
  rw [hnum, hreason, hheaders, hbody]

end TinyHTTP.Lib
