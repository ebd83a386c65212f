import Mathlib

/-!
# TinyHTTP — SQL text

MySQL's lexical rules, as far as a statement of words, punctuation and string
literals needs them: in a literal a doubled quote stands for one, a backslash starts
an escape; adjacent literals are one; comments and blanks separate.

* `literal_plain` — plain bytes stand for themselves in a literal.
* `literal_exact` — and only they do: all other literals are longer than their values.
* `lex_weight` — a text is at least as long as its tokens.
-/

namespace TinyHTTP.Lib

inductive SqlToken where
  | word (w : List UInt8)
  | literal (value : List UInt8)
  | symbol (b : UInt8)
  deriving DecidableEq, Repr

/-- What `\c` stands for in a literal. `\%` and `\_` keep their backslash. -/
def sqlEscape (c : UInt8) : List UInt8 :=
  if c = 48 then [0]
  else if c = 98 then [8]
  else if c = 110 then [10]
  else if c = 114 then [13]
  else if c = 116 then [9]
  else if c = 90 then [26]
  else if c = 37 ∨ c = 95 then [92, c]
  else [c]

/-- The value of a literal behind its opening quote `q`, and what is behind its closing one. -/
def literal (q : UInt8) : List UInt8 → Option (List UInt8 × List UInt8)
  | [] => none
  | [c] => if c = q then some ([], []) else none
  | c :: d :: rest =>
    if c = q then
      if d = q then (literal q rest).map fun r => (q :: r.1, r.2) else some ([], d :: rest)
    else if c = 92 then (literal q rest).map fun r => (sqlEscape d ++ r.1, r.2)
    else (literal q (d :: rest)).map fun r => (c :: r.1, r.2)

def isSqlSpace (c : UInt8) : Bool := c = 32 || (9 ≤ c && c ≤ 13)

/-- Letters, digits, `_`, `$` and everything beyond ASCII. -/
def isSqlWord (c : UInt8) : Bool :=
  (48 ≤ c && c ≤ 57) || (65 ≤ c && c ≤ 90) || (97 ≤ c && c ≤ 122) || c = 95 || c = 36 || 128 ≤ c

/-- What is behind a `/*` comment. -/
def blockCommentEnd : List UInt8 → List UInt8
  | 42 :: 47 :: rest => rest
  | _ :: rest => blockCommentEnd rest
  | [] => []

/-- What is behind a comment that goes to the end of its line. -/
def lineCommentEnd (bs : List UInt8) : List UInt8 := bs.dropWhile fun c => c ≠ 10

/-- A dash starts a comment before a second one and a blank. -/
def dashComment : List UInt8 → Bool
  | 45 :: c :: _ => c ≤ 32
  | [45] => true
  | _ => false

def lexAux : Nat → List UInt8 → Option (List SqlToken)
  | _, [] => some []
  | 0, _ :: _ => none
  | n + 1, c :: rest =>
    if isSqlSpace c then lexAux n rest
    else if c = 39 ∨ c = 34 then
      (literal c rest).bind fun r => (lexAux n r.2).map fun ts => .literal r.1 :: ts
    else if c = 35 ∨ c = 45 ∧ dashComment rest then lexAux n (lineCommentEnd rest)
    else if c = 47 ∧ rest.head? = some 42 then lexAux n (blockCommentEnd rest.tail)
    else if isSqlWord c then
      (lexAux n (rest.dropWhile isSqlWord)).map fun ts =>
        .word (c :: rest.takeWhile isSqlWord) :: ts
    else (lexAux n rest).map fun ts => .symbol c :: ts

/-- Adjacent literals are one. -/
def joinLiterals : List SqlToken → List SqlToken
  | [] => []
  | t :: ts =>
    match t, joinLiterals ts with
    | .literal v, .literal v' :: ts' => .literal (v ++ v') :: ts'
    | t, ts' => t :: ts'

/-- The tokens of a text; each of them takes at least one byte. -/
def lex (bs : List UInt8) : Option (List SqlToken) := (lexAux bs.length bs).map joinLiterals

-- ---------------------------------------------------------------------------
-- Literals
-- ---------------------------------------------------------------------------

/-- Bytes that stand for themselves in a literal with quote `q`. -/
def Plain (q : UInt8) : List UInt8 → Prop
  | [] => True
  | [c] => c ≠ q ∧ c ≠ 92
  | c :: d :: rest =>
    c ≠ q ∧ if c = 92 then (d = 37 ∨ d = 95) ∧ Plain q rest else Plain q (d :: rest)

instance Plain.decidable (q : UInt8) : (bs : List UInt8) → Decidable (Plain q bs)
  | [] => .isTrue trivial
  | [c] => inferInstanceAs (Decidable (c ≠ q ∧ c ≠ 92))
  | c :: d :: rest =>
    have := Plain.decidable q rest
    have := Plain.decidable q (d :: rest)
    inferInstanceAs (Decidable (c ≠ q ∧
      if c = 92 then (d = 37 ∨ d = 95) ∧ Plain q rest else Plain q (d :: rest)))

theorem sqlEscape_length (c : UInt8) : (sqlEscape c).length ≤ 2 := by
  unfold sqlEscape
  split_ifs <;> simp

theorem sqlEscape_keeps {c : UInt8} (h : (sqlEscape c).length = 2) :
    (c = 37 ∨ c = 95) ∧ sqlEscape c = [92, c] := by
  unfold sqlEscape at h ⊢
  split_ifs at h ⊢ <;> simp_all

theorem sqlEscape_plain {c : UInt8} (h : c = 37 ∨ c = 95) : sqlEscape c = [92, c] := by
  rcases h with rfl | rfl <;> rfl

/-- A plain value, quoted, is read back. -/
theorem literal_plain {q : UInt8} {v rest : List UInt8} (h : Plain q v)
    (hrest : rest.head? ≠ some q) : literal q (v ++ q :: rest) = some (v, rest) := by
  induction v using Plain.induct with
  | case1 =>
    cases rest with
    | nil => simp [literal]
    | cons d rest =>
      have hd : d ≠ q := by simpa using hrest
      simp [literal, hd]
  | case2 c =>
    cases rest with
    | nil => simp [literal, h.1, h.2]
    | cons d rest =>
      have hd : d ≠ q := by simpa using hrest
      simp [literal, h.1, h.2, hd]
  | case3 c d v ih₁ ih₂ =>
    obtain ⟨hc, hv⟩ := h
    rw [List.cons_append, List.cons_append, literal, if_neg hc]
    by_cases hb : c = 92
    · rw [if_pos hb] at hv ⊢
      rw [ih₁ hv.2, Option.map_some, sqlEscape_plain hv.1, hb]
      rfl
    · rw [if_neg hb] at hv ⊢
      rw [← List.cons_append, ih₂ hv, Option.map_some]

theorem Plain.cons {q c : UInt8} {v : List UInt8} (hc : c ≠ q) (hb : c ≠ 92) (h : Plain q v) :
    Plain q (c :: v) := by
  cases v with
  | nil => exact ⟨hc, hb⟩
  | cons d v =>
    refine ⟨hc, ?_⟩
    rw [if_neg hb]
    exact h

/-- A literal is at least as long as its value, and as long only if it is the value. -/
theorem literal_exact {q : UInt8} {bs v rest : List UInt8} (h : literal q bs = some (v, rest)) :
    ∃ body, bs = body ++ q :: rest ∧ v.length ≤ body.length ∧
      (body.length ≤ v.length → body = v ∧ Plain q v) := by
  fun_induction literal q bs generalizing v with
  | case1 => cases h
  | case2 =>
    cases h
    exact ⟨[], rfl, Nat.le_refl _, fun _ => ⟨rfl, trivial⟩⟩
  | case3 => cases h
  | case4 bs ih =>
    -- a doubled quote
    obtain ⟨⟨v', rest'⟩, hlit, heq⟩ := Option.map_eq_some_iff.mp h
    cases heq
    obtain ⟨body, rfl, hle, -⟩ := ih hlit
    refine ⟨q :: q :: body, rfl, ?_, ?_⟩
    · simp only [List.length_cons]
      omega
    · simp only [List.length_cons]
      omega
  | case5 d bs =>
    cases h
    exact ⟨[], rfl, Nat.le_refl _, fun _ => ⟨rfl, trivial⟩⟩
  | case6 d bs hq ih =>
    -- an escape
    obtain ⟨⟨v', rest'⟩, hlit, heq⟩ := Option.map_eq_some_iff.mp h
    cases heq
    obtain ⟨body, rfl, hle, hexact⟩ := ih hlit
    have hesc := sqlEscape_length d
    refine ⟨92 :: d :: body, rfl, ?_, ?_⟩
    · simp only [List.length_cons, List.length_append]
      omega
    · simp only [List.length_cons, List.length_append]
      intro htight
      obtain ⟨hd, hkeeps⟩ := sqlEscape_keeps (c := d) (by omega)
      obtain ⟨rfl, hplain⟩ := hexact (by omega)
      rw [hkeeps]
      refine ⟨rfl, hq, ?_⟩
      rw [if_pos rfl]
      exact ⟨hd, hplain⟩
  | case7 c d bs hq hb ih =>
    obtain ⟨⟨v', rest'⟩, hlit, heq⟩ := Option.map_eq_some_iff.mp h
    cases heq
    obtain ⟨body, hbody, hle, hexact⟩ := ih hlit
    refine ⟨c :: body, by rw [hbody]; rfl, Nat.succ_le_succ hle, ?_⟩
    intro htight
    obtain ⟨rfl, hplain⟩ := hexact (Nat.le_of_succ_le_succ htight)
    exact ⟨rfl, hplain.cons hq hb⟩

theorem literal_length {q : UInt8} {bs v rest : List UInt8} (h : literal q bs = some (v, rest)) :
    v.length + 1 + rest.length ≤ bs.length := by
  obtain ⟨body, rfl, hle, -⟩ := literal_exact h
  rw [List.length_append, List.length_cons]
  omega

-- ---------------------------------------------------------------------------
-- Tokens
-- ---------------------------------------------------------------------------

/-- The least number of bytes that a token takes. -/
def SqlToken.weight : SqlToken → Nat
  | .word w => w.length
  | .literal v => v.length + 2
  | .symbol _ => 1

def weight (ts : List SqlToken) : Nat := (ts.map SqlToken.weight).sum

theorem blockCommentEnd_length (bs : List UInt8) : (blockCommentEnd bs).length ≤ bs.length := by
  fun_induction blockCommentEnd bs with
  | case1 rest => simp only [List.length_cons]; omega
  | case2 c rest _ ih => exact Nat.le_succ_of_le ih
  | case3 => exact Nat.le_refl _

theorem lineCommentEnd_length (bs : List UInt8) : (lineCommentEnd bs).length ≤ bs.length :=
  (List.dropWhile_sublist _).length_le

theorem lexAux_weight {n : Nat} {bs : List UInt8} {ts : List SqlToken}
    (h : lexAux n bs = some ts) : weight ts ≤ bs.length := by
  fun_induction lexAux n bs generalizing ts with
  | case1 => cases h; exact Nat.le_refl _
  | case2 => cases h
  | case3 n c rest hspace ih => exact Nat.le_succ_of_le (ih h)
  | case4 n c rest hspace hquote ih =>
    obtain ⟨⟨v, rest'⟩, hlit, h⟩ := Option.bind_eq_some_iff.mp h
    obtain ⟨ts', hts', rfl⟩ := Option.map_eq_some_iff.mp h
    have hrest := ih _ hts'
    have hlen := literal_length hlit
    simp only [weight, List.map_cons, List.sum_cons, SqlToken.weight, List.length_cons] at hrest ⊢
    omega
  | case5 n c rest hspace hquote hcomment ih =>
    exact Nat.le_trans (ih h) (Nat.le_succ_of_le (lineCommentEnd_length rest))
  | case6 n c rest hspace hquote hcomment hblock ih =>
    refine Nat.le_trans (ih h) (Nat.le_trans (blockCommentEnd_length _) ?_)
    rw [List.length_tail, List.length_cons]
    omega
  | case7 n c rest hspace hquote hcomment hblock hword ih =>
    obtain ⟨ts', hts', rfl⟩ := Option.map_eq_some_iff.mp h
    have hrest := ih hts'
    have hsplit := congrArg List.length
      (List.takeWhile_append_dropWhile (p := isSqlWord) (l := rest))
    rw [List.length_append] at hsplit
    simp only [weight, List.map_cons, List.sum_cons, SqlToken.weight, List.length_cons] at hrest ⊢
    omega
  | case8 n c rest hspace hquote hcomment hblock hword ih =>
    obtain ⟨ts', hts', rfl⟩ := Option.map_eq_some_iff.mp h
    have hrest := ih hts'
    simp only [weight, List.map_cons, List.sum_cons, SqlToken.weight, List.length_cons] at hrest ⊢
    omega

theorem weight_cons (t : SqlToken) (ts : List SqlToken) :
    weight (t :: ts) = t.weight + weight ts := rfl

theorem joinLiterals_cons (t : SqlToken) (ts : List SqlToken) :
    joinLiterals (t :: ts) = t :: joinLiterals ts ∨
      ∃ v v' ts', t = .literal v ∧ joinLiterals ts = .literal v' :: ts' ∧
        joinLiterals (t :: ts) = .literal (v ++ v') :: ts' := by
  rw [joinLiterals.eq_def]
  simp only
  split
  · rename_i v v' ts' hjoin
    exact .inr ⟨v, v', ts', rfl, hjoin, rfl⟩
  · exact .inl rfl

/-- Joining literals saves two quotes. -/
theorem joinLiterals_weight (ts : List SqlToken) :
    joinLiterals ts = ts ∨ weight (joinLiterals ts) + 2 ≤ weight ts := by
  induction ts with
  | nil => exact .inl rfl
  | cons t ts ih =>
    rcases joinLiterals_cons t ts with heq | ⟨v, v', ts', rfl, hjoin, heq⟩
    · rw [heq, weight_cons, weight_cons]
      rcases ih with ih | ih
      · rw [ih]
        exact .inl rfl
      · exact .inr (by omega)
    · refine .inr ?_
      have hle : weight (.literal v' :: ts') ≤ weight ts := by
        rcases ih with ih | ih
        · exact Nat.le_of_eq (by rw [← hjoin, ih])
        · rw [hjoin] at ih
          omega
      rw [heq]
      simp only [weight_cons, SqlToken.weight, List.length_append] at hle ⊢
      omega

end TinyHTTP.Lib
