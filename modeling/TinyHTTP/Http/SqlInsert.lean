import TinyHTTP.Http.Users
import TinyHTTP.Lib.SqlText

/-!
# TinyHTTP — the INSERT of a registration

`sql_insert` puts the name and the password between quotes as they are.

* `sqlInsert_exact` — the text is an INSERT of the name and the password exactly if
  both are plain.
* `credentials_survive` — so the table, loaded again, agrees with `users` exactly then.
-/

namespace TinyHTTP.Http

open TinyHTTP.Lib

def insertHead : List SqlToken :=
  [.word (bytes "INSERT"), .word (bytes "INTO"), .word (bytes "user"), .symbol 40,
    .word (bytes "username"), .symbol 44, .word (bytes "passwd"), .symbol 41,
    .word (bytes "VALUES"), .symbol 40]

def insertTail (row : Row) : List SqlToken :=
  [.literal row.1, .symbol 44, .literal row.2, .symbol 41]

/-- The row that a text inserts into `user`, if it is one INSERT of two literals. -/
def insertedRow (text : List UInt8) : Option Row :=
  match lex text with
  | none => none
  | some ts =>
    if ts.take 10 = insertHead then
      match ts.drop 10 with
      | [.literal name, .symbol 44, .literal password, .symbol 41] => some (name, password)
      | _ => none
    else none

/-- The row that the text of the statement inserts, if it is an `INSERT` with two literals. -/
theorem insertedRow_iff {text : List UInt8} {row : Row} :
    insertedRow text = some row ↔ lex text = some (insertHead ++ insertTail row) := by
  constructor
  · intro h
    unfold insertedRow at h
    split at h
    · cases h
    · rename_i ts hlex
      split at h
      · rename_i hhead
        split at h
        · rename_i name password htail
          cases h
          rw [hlex, ← List.take_append_drop 10 ts, hhead, htail]
          rfl
        · cases h
      · cases h
  · intro h
    unfold insertedRow
    rw [h]
    rfl

-- ---------------------------------------------------------------------------
-- The text
-- ---------------------------------------------------------------------------

/-- The text in front of the name is the same in every statement. -/
theorem lexAux_insertHead (n : Nat) (rest : List UInt8) :
    lexAux (n + 14) (bytes "INSERT INTO user(username, passwd) VALUES(" ++ rest) =
      (lexAux n rest).map fun ts => insertHead ++ ts := by
  simp [lexAux, isSqlSpace, isSqlWord, Option.map_map, bytes, insertHead]
  cases lexAux n rest with
  | none => rfl
  | some ts => rfl

/-- What is behind the quote that opens the name. -/
def insertValues (name password : List UInt8) : List UInt8 :=
  name ++ bytes "', '" ++ password ++ bytes "')"

/-- The name, the password, and what the source puts between and behind them. -/
theorem insertValues_eq (name password : List UInt8) :
    insertValues name password = name ++ 39 :: 44 :: 32 :: 39 :: (password ++ [39, 41]) := by
  simp [insertValues, bytes]

theorem lexAux_quote (n : Nat) (bs : List UInt8) : lexAux (n + 1) (39 :: bs) =
    (literal 39 bs).bind fun r => (lexAux n r.2).map fun ts => .literal r.1 :: ts := by
  simp [lexAux, isSqlSpace]

theorem lexAux_comma (n : Nat) (bs : List UInt8) : lexAux (n + 2) (44 :: 32 :: bs) =
    (lexAux n bs).map fun ts => .symbol 44 :: ts := by
  simp [lexAux, isSqlSpace, isSqlWord]

theorem lexAux_paren (n : Nat) : lexAux (n + 1) [41] = some [.symbol 41] := by
  simp [lexAux, isSqlSpace, isSqlWord]

/-- No literal is in front of the name, to be joined with it. -/
theorem joinLiterals_insertHead (ts : List SqlToken) :
    joinLiterals (insertHead ++ ts) = insertHead ++ joinLiterals ts := by
  simp [insertHead, joinLiterals]

/-- The text is an INSERT exactly if its values are two literals. -/
theorem insertedRow_sqlInsert_iff {name password : List UInt8} {row : Row} :
    insertedRow (sqlInsert name password) = some row ↔
      ∃ ts, lexAux (name.length + password.length + 35) (39 :: insertValues name password) =
        some ts ∧ joinLiterals ts = insertTail row := by
  have htext : sqlInsert name password = bytes "INSERT INTO user(username, passwd) VALUES(" ++
      (39 :: insertValues name password) := by
    simp [sqlInsert, insertValues, bytes]
  have hlen : (sqlInsert name password).length = name.length + password.length + 35 + 14 := by
    rw [htext, insertValues_eq]
    simp [bytes]
    omega
  rw [insertedRow_iff, lex, hlen, htext, lexAux_insertHead, Option.map_map, Option.map_eq_some_iff]
  refine exists_congr fun ts => and_congr_right fun _ => ?_
  rw [Function.comp_apply, joinLiterals_insertHead, List.append_cancel_left_eq]

-- ---------------------------------------------------------------------------
-- Plain values
-- ---------------------------------------------------------------------------

/-- Fields that are plain are read back as they are. -/
theorem insertedRow_of_plain {name password : List UInt8} (hname : Plain 39 name)
    (hpassword : Plain 39 password) :
    insertedRow (sqlInsert name password) = some (name, password) := by
  rw [insertedRow_sqlInsert_iff]
  refine ⟨insertTail (name, password), ?_, rfl⟩
  rw [insertValues_eq, lexAux_quote, literal_plain hname (by simp), Option.bind_some, lexAux_comma,
    lexAux_quote, literal_plain hpassword (by simp), Option.bind_some, lexAux_paren]
  rfl

/-- The name's literal ends at the quote of the template: behind the next byte there is none. -/
theorem literal_insertValues {name password v rest : List UInt8}
    (h : literal 39 (insertValues name password) = some (v, rest)) (hv : v = name)
    (hrest : password.length + 4 ≤ rest.length) :
    Plain 39 name ∧ rest = 44 :: 32 :: 39 :: (password ++ [39, 41]) := by
  obtain ⟨body, hbody, hle, hexact⟩ := literal_exact h
  subst hv
  rw [insertValues_eq] at hbody
  have hlen := congrArg List.length hbody
  simp only [List.length_append, List.length_cons, List.length_nil] at hlen
  by_cases htight : body.length ≤ v.length
  · obtain ⟨rfl, hplain⟩ := hexact htight
    exact ⟨hplain, (List.cons_inj_right 39).mp (List.append_cancel_left hbody.symm)⟩
  · have hnext : body.length = v.length + 1 := by omega
    have hbyte := congrArg (fun bs => bs[v.length + 1]?) hbody
    simp only [List.getElem?_append_right (Nat.le_add_right v.length 1)] at hbyte
    rw [← hnext, List.getElem?_append_right (Nat.le_refl _), hnext] at hbyte
    simp at hbyte

/-- Fields that are read back as they are were plain. -/
theorem plain_of_insertedRow {name password : List UInt8}
    (h : insertedRow (sqlInsert name password) = some (name, password)) :
    Plain 39 name ∧ Plain 39 password := by
  obtain ⟨ts, hts, hjoin⟩ := insertedRow_sqlInsert_iff.mp h
  -- there is no byte to spare for two more quotes
  have htokens : ts = insertTail (name, password) := by
    have hweight := lexAux_weight hts
    rcases joinLiterals_weight ts with heq | hle
    · rw [← heq, hjoin]
    · rw [hjoin] at hle
      rw [insertValues_eq] at hweight
      simp [insertTail, weight, SqlToken.weight] at hle hweight
      omega
  subst htokens
  rw [lexAux_quote] at hts
  obtain ⟨⟨v, rest⟩, hliteral, hts⟩ := Option.bind_eq_some_iff.mp hts
  obtain ⟨ts, hrest, heq⟩ := Option.map_eq_some_iff.mp hts
  simp only [insertTail, List.cons.injEq, SqlToken.literal.injEq] at heq
  obtain ⟨rfl, rfl⟩ := heq
  have hweight := lexAux_weight hrest
  simp [weight, SqlToken.weight] at hweight
  obtain ⟨hname, rfl⟩ := literal_insertValues hliteral rfl (by omega)
  refine ⟨hname, ?_⟩
  rw [lexAux_comma, lexAux_quote] at hrest
  obtain ⟨ts, hrest, heq⟩ := Option.map_eq_some_iff.mp hrest
  obtain ⟨⟨v', rest⟩, hliteral', hts⟩ := Option.bind_eq_some_iff.mp hrest
  obtain ⟨ts', hrest', heq'⟩ := Option.map_eq_some_iff.mp hts
  simp only [List.cons.injEq, true_and] at heq
  rw [← heq', List.cons.injEq, SqlToken.literal.injEq] at heq
  obtain ⟨rfl, rfl⟩ := heq
  have hweight' := lexAux_weight hrest'
  simp [weight, SqlToken.weight] at hweight'
  obtain ⟨body, hbody, hle, hexact⟩ := literal_exact hliteral'
  have hlen := congrArg List.length hbody
  simp only [List.length_append, List.length_cons, List.length_nil] at hlen
  exact (hexact (by omega)).2

/-- **The text is an INSERT of the name and the password** exactly if both are plain. -/
theorem sqlInsert_exact (name password : List UInt8) :
    insertedRow (sqlInsert name password) = some (name, password) ↔
      Plain 39 name ∧ Plain 39 password :=
  ⟨plain_of_insertedRow, fun h => insertedRow_of_plain h.1 h.2⟩

-- ---------------------------------------------------------------------------
-- The table
-- ---------------------------------------------------------------------------

/-- The registration of a new name and the table agree: the text inserts the name and the password,
and `initmysql_result` reads back what `users` holds. -/
structure Survives (name password : List UInt8) : Prop where
  inserted : insertedRow (sqlInsert name password) = some (name, password)
  reloaded : ∀ (table : List Row) (row : Row) (w : World),
    insertedRow (sqlInsert name password) = some row → w.users name = none →
    initmysqlResult (fun _ => none) (table ++ [row]) name =
      (w.register name password).1.users name

/-- A field that ends at its NUL holds no other. -/
theorem copyField_asString {buf : Mem} {room i : Nat} {field : List UInt8}
    (h : copyField buf 0 room i = .ok field) : asString field = field := by
  induction room generalizing i field with
  | zero => cases h
  | succ room ih =>
    rw [copyField] at h
    split at h
    · cases h
    · split at h
      · cases h
        rfl
      · rename_i hb
        cases hrest : copyField buf 0 room (i + 1) with
        | error f => rw [hrest] at h; cases h
        | ok rest =>
          rw [hrest] at h
          cases h
          rw [asString, List.takeWhile_cons_of_pos (by simpa using hb)]
          exact congrArg (buf i :: ·) (ih hrest)

/-- The loop over the password stops at a NUL, and the name is used up to its first one. -/
theorem credentials_asString {buf : Mem} {text : Nat} {name password : List UInt8}
    (h : credentials buf text = .ok (name, password)) :
    asString name = name ∧ asString password = password := by
  unfold credentials at h
  cases hname : copyField buf 38 100 (text + 5) with
  | error f => rw [hname] at h; cases h
  | ok name' =>
    cases hpassword : copyField buf 0 100 (text + 5 + name'.length + 10) with
    | error f => simp [hname, hpassword, bind, Except.bind] at h
    | ok password' =>
      simp only [hname, hpassword, bind, Except.bind, pure, Except.pure, Except.ok.injEq,
        Prod.mk.injEq] at h
      obtain ⟨rfl, rfl⟩ := h
      exact ⟨List.takeWhile_idem, copyField_asString hpassword⟩

theorem initmysqlResult_last (users : List UInt8 → Option (List UInt8)) (table : List Row)
    (row : Row) : initmysqlResult users (table ++ [row]) (asString row.1) =
      some (asString row.2) := by
  rw [initmysqlResult, List.foldl_append]
  exact Function.update_self ..

/-- **Credentials survive** the trip through the text exactly if both are plain. -/
theorem credentials_survive {buf : Mem} {text : Nat} {name password : List UInt8}
    (h : credentials buf text = .ok (name, password)) :
    Survives name password ↔ Plain 39 name ∧ Plain 39 password := by
  constructor
  · intro hsurvives
    exact (sqlInsert_exact name password).mp hsurvives.inserted
  · intro hplain
    have hinserted := (sqlInsert_exact name password).mpr hplain
    refine ⟨hinserted, ?_⟩
    intro table row w hrow hnew
    rw [hinserted, Option.some.injEq] at hrow
    subst hrow
    obtain ⟨hname, hpassword⟩ := credentials_asString h
    have hlast := initmysqlResult_last (fun _ => none) table (name, password)
    rw [hname, hpassword] at hlast
    rw [hlast, register_new password hnew]
    exact (Function.update_self name (some password) w.users).symm

/-- A body, as `m_string` finds it. -/
def bodyBuf (body : List UInt8) : Mem := writeBytes (fun _ => 0) 0 body

theorem credentials_survive_plain : Survives (bytes "123") (bytes "1%2") := by
  have h : credentials (bodyBuf (bytes "user=123&password=1%2")) 0 =
      .ok (bytes "123", bytes "1%2") := rfl
  exact (credentials_survive h).mpr ⟨by decide +kernel, by decide +kernel⟩

/-- A quote in the name ends its literal. -/
theorem credentials_lost : ¬ ∀ (buf : Mem) (text : Nat) (name password : List UInt8),
    credentials buf text = .ok (name, password) → Survives name password := by
  intro hall
  have h : credentials (bodyBuf (bytes "user=o'b&password=x")) 0 =
      .ok (bytes "o'b", bytes "x") := rfl
  have hinserted := (hall _ _ _ _ h).inserted
  exact absurd hinserted (by decide +kernel)

end TinyHTTP.Http
