import TinyHTTP.Http.Conn
import TinyHTTP.Lib.Run

/-!
# TinyHTTP — the users map

`users` is filled from the table by `initmysql_result` and from then on only by
registrations. A `Ledger` serves logins and registrations one after the other, and
keeps the rows of the INSERTs that succeeded.

* `register_unchanged_iff` — when a failed registration leaves `users` alone.
* `failed_registration` — logins accept what was loaded and what was inserted, as
  long as the INSERT succeeds for every new name, and no longer.
-/

namespace TinyHTTP.Http

open TinyHTTP.Lib

/-- A row of the table: the name and the password. -/
abbrev Row := List UInt8 × List UInt8

/-- The loop of `initmysql_result`: `users[temp1] = temp2` for every row. -/
def initmysqlResult (users : List UInt8 → Option (List UInt8)) (rows : List Row) :
    List UInt8 → Option (List UInt8) :=
  rows.foldl (fun users row => Function.update users (asString row.1) (some (asString row.2))) users

/-- A request that reaches the check of name and password. -/
structure CgiRequest where
  /-- `*(p + 1)` -/
  flag : UInt8
  name : List UInt8
  password : List UInt8
  /-- whether `mysql_query` succeeds, if it is called -/
  query : Bool

/-- The world, and the rows that have been inserted into the table. -/
structure Ledger where
  world : World
  inserted : List Row

/-- The request makes a registration that calls `mysql_query`. -/
def CgiRequest.Inserts (r : CgiRequest) (w : World) : Prop :=
  r.flag = 51 ∧ w.users r.name = none

instance (r : CgiRequest) (w : World) : Decidable (r.Inserts w) :=
  inferInstanceAs (Decidable (_ ∧ _))

/-- The check of a request. -/
def CgiRequest.serve (r : CgiRequest) (w : World) : Except Fault (World × List UInt8) :=
  World.check { w with mysqlQuery := fun _ => r.query } r.flag r.name r.password

def Ledger.step (l : Ledger) (r : CgiRequest) : Option Ledger :=
  match r.serve l.world with
  | .ok (w, _) =>
    some ⟨w, if r.Inserts l.world ∧ r.query = true then l.inserted ++ [(r.name, r.password)]
      else l.inserted⟩
  | .error _ => none

/-- `initmysql_result` has loaded the rows into the empty map. -/
def Loaded (rows : List Row) (l : Ledger) : Prop :=
  l.world.users = initmysqlResult (fun _ => none) rows ∧ l.inserted = []

/-- The login branch accepts the pair. -/
def World.Accepts (w : World) (name password : List UInt8) : Prop :=
  w.login name password = bytes "/welcome.html"

/-- Logins accept what was loaded, and what was inserted since. -/
def Balanced (rows : List Row) (l : Ledger) : Prop :=
  ∀ name password, l.world.Accepts name password ↔
    initmysqlResult (fun _ => none) rows name = some password ∨ (name, password) ∈ l.inserted

/-- The INSERT of a new name succeeds. -/
def InsertSucceeds (l : Ledger) (r : CgiRequest) : Prop :=
  r.Inserts l.world → r.query = true

instance (l : Ledger) (r : CgiRequest) : Decidable (InsertSucceeds l r) :=
  inferInstanceAs (Decidable (_ → _))

-- ---------------------------------------------------------------------------
-- One request
-- ---------------------------------------------------------------------------

/-- The login page compares with what the map has. -/
theorem accepts_iff {w : World} {name password : List UInt8} :
    w.Accepts name password ↔ w.users name = some password := by
  unfold World.Accepts World.login
  split
  · exact iff_of_true rfl ‹_›
  · exact iff_of_false (by decide +kernel) ‹_›

/-- A name that is taken is refused, whatever the password. -/
theorem register_known {w : World} {name : List UInt8} (password : List UInt8)
    (h : w.users name ≠ none) : w.register name password = (w, bytes "/registerError.html") := by
  obtain ⟨known, hknown⟩ := Option.ne_none_iff_exists'.mp h
  unfold World.register
  rw [hknown]

/-- A name that is free is put into the map, whatever `mysql_query` returns. -/
theorem register_new {w : World} {name : List UInt8} (password : List UInt8)
    (h : w.users name = none) : w.register name password =
      ({ w with users := Function.update w.users name (some password) },
        if w.mysqlQuery (sqlInsert name password) then bytes "/log.html"
        else bytes "/registerError.html") := by
  unfold World.register
  rw [h]

/-- A registration that is answered with `/registerError.html` leaves the users as they are,
unless its name was new and its INSERT failed. -/
theorem register_unchanged_iff (w : World) (name password : List UInt8) :
    ((w.register name password).2 = bytes "/registerError.html" →
      (w.register name password).1.users = w.users) ↔
    (w.users name = none → w.mysqlQuery (sqlInsert name password) = true) := by
  by_cases hname : w.users name = none
  · rw [register_new password hname]
    constructor
    · intro hsame _
      by_contra hquery
      have heq : Function.update w.users name (some password) = w.users := hsame (if_neg hquery)
      have hupd := congrFun heq name
      rw [Function.update_self, hname] at hupd
      cases hupd
    · intro hquery herror
      simp only [if_pos (hquery hname)] at herror
      exact absurd herror (by decide +kernel)
  · rw [register_known password hname]
    exact iff_of_true (fun _ => rfl) fun h => absurd h hname

/-- What a request does to the ledger. -/
inductive LedgerStep (l : Ledger) (r : CgiRequest) : Ledger → Prop
  | same (w : World) (hr : ¬ r.Inserts l.world) (hw : w.users = l.world.users) :
      LedgerStep l r ⟨w, l.inserted⟩
  | insert (w : World) (hr : r.Inserts l.world)
      (hw : w.users = Function.update l.world.users r.name (some r.password)) :
      LedgerStep l r
        ⟨w, if r.query = true then l.inserted ++ [(r.name, r.password)] else l.inserted⟩

/-- **Inversion.** -/
theorem ledger_cases {l l' : Ledger} {r : CgiRequest} (hs : l.step r = some l') :
    LedgerStep l r l' := by
  unfold Ledger.step at hs
  split at hs
  · rename_i w page hserve
    obtain rfl := Option.some.inj hs
    unfold CgiRequest.serve World.check at hserve
    by_cases hflag : r.flag = 51
    · rw [if_pos hflag] at hserve
      split at hserve
      · by_cases hname : l.world.users r.name = none
        · rw [register_new (w := { l.world with mysqlQuery := fun _ => r.query }) r.password hname]
            at hserve
          cases hserve
          have hr : r.Inserts l.world := ⟨hflag, hname⟩
          simp only [hr, true_and]
          exact .insert _ hr rfl
        · rw [register_known (w := { l.world with mysqlQuery := fun _ => r.query }) r.password
            hname] at hserve
          cases hserve
          have hr : ¬ r.Inserts l.world := fun h => hname h.2
          simp only [hr, false_and, if_false]
          exact .same _ hr rfl
      · cases hserve
    · rw [if_neg hflag] at hserve
      cases hserve
      have hr : ¬ r.Inserts l.world := fun h => hflag h.1
      simp only [hr, false_and, if_false]
      exact .same _ hr rfl
  · cases hs

-- ---------------------------------------------------------------------------
-- Runs
-- ---------------------------------------------------------------------------

/-- The map has been filled from the table. -/
theorem balanced_loaded {rows : List Row} {l : Ledger} (h : Loaded rows l) : Balanced rows l := by
  intro name password
  rw [accepts_iff, h.1, h.2]
  simp only [List.not_mem_nil, or_false]

/-- A request keeps the ledger balanced exactly if it is no registration of a new name whose
INSERT fails. -/
theorem balanced_step {rows : List Row} {l l' : Ledger} {r : CgiRequest} (h : Balanced rows l)
    (hs : l.step r = some l') : Balanced rows l' ↔ InsertSucceeds l r := by
  unfold Balanced at h ⊢
  simp only [accepts_iff] at h ⊢
  cases ledger_cases hs with
  | same w hr hw =>
    refine iff_of_true ?_ fun hr' => absurd hr' hr
    rw [hw]
    exact h
  | insert w hr hw =>
    rw [hw]
    constructor
    · intro hbalanced _
      by_contra hquery
      -- the pair is accepted now, and was not before
      have hnew := (hbalanced r.name r.password).mp (Function.update_self ..)
      rw [if_neg hquery, ← h r.name r.password, hr.2] at hnew
      cases hnew
    · intro hquery name password
      rw [if_pos (hquery hr), List.mem_append, List.mem_singleton, Prod.mk.injEq]
      by_cases hname : name = r.name
      · subst hname
        have hold : ¬ (initmysqlResult (fun _ => none) rows r.name = some password ∨
            (r.name, password) ∈ l.inserted) := by
          rw [← h r.name password, hr.2]
          exact nofun
        rw [Function.update_self, Option.some.injEq, eq_comm]
        tauto
      · rw [Function.update_of_ne hname, h name password]
        tauto

/-- **Run lemma.** -/
theorem balanced_reachable {rows : List Row} {l : Ledger}
    (h : Reachable (Loaded rows) Ledger.step InsertSucceeds l) : Balanced rows l :=
  h.invariant (fun _ h => balanced_loaded h) fun _ _ _ ht hok hs => (balanced_step ht hs).mpr hok

/-- **A failed registration changes nothing** if its name was known, and only then; logins accept
what was loaded and what was inserted until the first INSERT fails, and no longer. -/
theorem failed_registration {rows : List Row} {l : Ledger}
    (h : Reachable (Loaded rows) Ledger.step InsertSucceeds l) :
    Balanced rows l ∧
    (∀ r l', l.step r = some l' → (Balanced rows l' ↔ InsertSucceeds l r)) ∧
    ∀ (w : World) (name password : List UInt8),
      ((w.register name password).2 = bytes "/registerError.html" →
        (w.register name password).1.users = w.users) ↔
      (w.users name = none → w.mysqlQuery (sqlInsert name password) = true) := by
  have hbalanced := balanced_reachable h
  exact ⟨hbalanced, fun r l' hs => balanced_step hbalanced hs, register_unchanged_iff⟩

/-- A world without files and users, whose queries all fail. -/
def queriesFail : World where
  file := fun _ => none
  users := fun _ => none
  mysqlQuery := fun _ => false

/-- One pair has been loaded. -/
def oneUser : Ledger :=
  ⟨{ queriesFail with users := initmysqlResult (fun _ => none) [(bytes "a", bytes "b")] }, []⟩

/-- A login, a registration that succeeds, and one of a name that is known. -/
def threeRequests : List CgiRequest :=
  [⟨50, bytes "a", bytes "b", true⟩, ⟨51, bytes "c", bytes "d", true⟩,
    ⟨51, bytes "a", bytes "e", true⟩]

theorem failed_registration_oneUser : ∃ l : Ledger, l.inserted = [(bytes "c", bytes "d")] ∧
    Balanced [(bytes "a", bytes "b")] l ∧
    (∀ r l', l.step r = some l' →
      (Balanced [(bytes "a", bytes "b")] l' ↔ InsertSucceeds l r)) ∧
    ∀ (w : World) (name password : List UInt8),
      ((w.register name password).2 = bytes "/registerError.html" →
        (w.register name password).1.users = w.users) ↔
      (w.users name = none → w.mysqlQuery (sqlInsert name password) = true) := by
  have hrun : (runSteps (guarded (fun l r => decide (InsertSucceeds l r)) Ledger.step) oneUser
      threeRequests).any (fun l => decide (l.inserted = [(bytes "c", bytes "d")])) = true := by
    decide +kernel
  obtain ⟨l, hs, hinserted⟩ := (Option.any_eq_true _ _).mp hrun
  have hreach : Reachable (Loaded [(bytes "a", bytes "b")]) Ledger.step InsertSucceeds l :=
    Reachable.of_guarded (fun _ _ h => of_decide_eq_true h) (.init ⟨rfl, rfl⟩) hs
  exact ⟨l, of_decide_eq_true hinserted, failed_registration hreach⟩

/-- The registration of a new name, whose INSERT fails. -/
def insertFails : CgiRequest := ⟨51, bytes "a", bytes "b", false⟩

/-- The answer is `/registerError.html`, and the pair is accepted from then on. -/
theorem failed_registration_accepted :
    ¬ (∀ (w : World) (name password : List UInt8),
      (w.register name password).2 = bytes "/registerError.html" →
        (w.register name password).1.users = w.users) ∧
    ¬ ∀ (rows : List Row) (l : Ledger),
      Reachable (Loaded rows) Ledger.step (fun _ _ => True) l → Balanced rows l := by
  constructor
  · intro hall
    have hsame := hall queriesFail (bytes "a") (bytes "b") (by decide +kernel)
    have ha : (queriesFail.register (bytes "a") (bytes "b")).1.users (bytes "a") = none := by
      rw [hsame]
      rfl
    exact absurd ha (by decide +kernel)
  · intro hall
    have hinit : Loaded [] ⟨queriesFail, []⟩ := ⟨rfl, rfl⟩
    have hserved : (Ledger.step ⟨queriesFail, []⟩ insertFails).isSome = true := by decide +kernel
    obtain ⟨l, hs⟩ := Option.isSome_iff_exists.mp hserved
    have hbalanced := hall [] l (.step insertFails (.init hinit) trivial hs)
    have hok := (balanced_step (balanced_loaded hinit) hs).mp hbalanced
    exact absurd (hok ⟨rfl, rfl⟩) (by decide)

end TinyHTTP.Http
