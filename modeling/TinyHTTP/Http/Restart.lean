import TinyHTTP.Http.Registration
import TinyHTTP.Http.SqlInsert
import TinyHTTP.Lib.Table

/-!
# TinyHTTP — a restart

The registrations again, with the table behind them. `users` keeps the first password
that a worker brings for a name, whether its INSERT succeeded or not; the table gets a
row for every INSERT that succeeded, and `initmysql_result` reads it without asking for an
order.

* `journal_reachable` — what `users` and the table hold in terms of the INSERTs.
* `restart_iff` — when a restart changes nothing, and when it keeps an account.
-/

namespace TinyHTTP.Http

open TinyHTTP.Lib

variable {ι : Type}

/-- The registrations, the table, and the calls of `mysql_query` with what they returned. -/
structure Backed (ι : Type) where
  regs : Registrations ι
  table : List Row
  journal : List (ι × Bool)

/-- A step of a registration; an INSERT that succeeds changes the table. -/
def Backed.step [DecidableEq ι] (reqs : ι → Row) (s : Backed ι) (l : RegisterLabel ι) :
    Option (Backed ι) :=
  (s.regs.step reqs l).map fun regs =>
    match s.regs.pc l.worker with
    | .locked =>
      let text := sqlInsert (reqs l.worker).1 (reqs l.worker).2
      { regs := regs
        table := if l.query then s.table ++ (insertedRow text).toList else s.table
        journal := s.journal ++ [(l.worker, l.query)] }
    | _ => { s with regs := regs }

/-- What `initmysql_result` makes of the rows. -/
def reloaded (rows : List Row) : List UInt8 → Option (List UInt8) :=
  initmysqlResult (fun _ => none) rows

/-- A row as two C strings. -/
def asStrings (row : Row) : Row := (asString row.1, asString row.2)

/-- The server has been started with the table, and no registration has begun. -/
def BackedInitial (rows : List Row) (s : Backed ι) : Prop :=
  RegisterInitial s.regs ∧ s.regs.users = reloaded rows ∧ s.table = rows ∧ s.journal = []

/-- The rows of some INSERTs. -/
def rowsOf (reqs : ι → Row) (journal : List (ι × Bool)) : List Row :=
  journal.map fun e => reqs e.1

/-- The rows of the INSERTs that succeeded. -/
def storedRows (reqs : ι → Row) (journal : List (ι × Bool)) : List Row :=
  rowsOf reqs (journal.filter Prod.snd)

theorem storedRows_concat (reqs : ι → Row) (journal : List (ι × Bool)) (i : ι) (ok : Bool) :
    storedRows reqs (journal ++ [(i, ok)]) =
      storedRows reqs journal ++ if ok then [reqs i] else [] := by
  rw [storedRows, List.filter_append, rowsOf, List.map_append]
  cases ok <;> rfl

/-- The password that the first INSERT for a name has. -/
def firstPassword (reqs : ι → Row) (journal : List (ι × Bool)) :
    List UInt8 → Option (List UInt8) :=
  firstWins (fun _ => none) (rowsOf reqs journal)

/-- A name and a password that the INSERT gets to the table as they are. -/
structure Storable (row : Row) : Prop where
  plain : Plain 39 row.1 ∧ Plain 39 row.2
  strings : asStrings row = row

theorem reloaded_eq (rows : List Row) :
    reloaded rows = lastWins (fun _ => none) (rows.map asStrings) := by
  rw [lastWins, List.foldl_map]
  rfl

theorem insertUser_eq (users : List UInt8 → Option (List UInt8)) (row : Row) :
    insertUser users row = insertNew users row := by
  cases h : users row.1 with
  | some known => simp only [insertUser, insertNew, h]
  | none => simp only [insertUser, insertNew, h]

-- ---------------------------------------------------------------------------
-- The journal
-- ---------------------------------------------------------------------------

/-- The INSERT whose row `users` has not got yet. -/
inductive Pending (s : Backed ι) : List (ι × Bool) → Prop
  | none (h : ∀ i ok, s.regs.pc i ≠ .queried ok) : Pending s []
  | one {i : ι} {ok : Bool} (h : s.regs.pc i = .queried ok) : Pending s [(i, ok)]

/-- The registration has seen that its name is not there. -/
def RegisterPc.Looked (pc : RegisterPc) : Prop := pc = .checked ∨ pc.Inserting

structure Journaled (reqs : ι → Row) (rows : List Row) (s : Backed ι) : Prop where
  inLock : ∀ i, (s.regs.pc i).InLock ↔ s.regs.lock = some i
  table : s.table = rows ++ storedRows reqs s.journal
  users : ∃ done pending, s.journal = done ++ pending ∧ Pending s pending ∧
    s.regs.users = firstWins (reloaded rows) (rowsOf reqs done)
  looked : ∀ i, (s.regs.pc i).Looked → reloaded rows (reqs i).1 = none
  fresh : ∀ e ∈ s.journal, reloaded rows (reqs e.1).1 = none
  succeeded : ∀ i, (s.regs.pc i).Succeeded → (i, true) ∈ s.journal

theorem journaled_initial {reqs : ι → Row} {rows : List Row} {s : Backed ι}
    (h : BackedInitial rows s) : Journaled reqs rows s := by
  obtain ⟨⟨hlock, hpc⟩, husers, htable, hjournal⟩ := h
  refine ⟨?_, ?_, ⟨[], [], hjournal, .none ?_, husers⟩, ?_, ?_, ?_⟩
  · intro i
    rw [hlock, hpc]
    simp [RegisterPc.InLock, RegisterPc.Inserting]
  · rw [htable, hjournal]
    exact (List.append_nil rows).symm
  · intro i ok
    rw [hpc]
    simp
  · intro i hi
    rw [hpc] at hi
    simp [RegisterPc.Looked, RegisterPc.Inserting] at hi
  · rw [hjournal]
    exact fun e he => absurd he List.not_mem_nil
  · intro i hi
    rw [hpc] at hi
    simp [RegisterPc.Succeeded, RegisterPc.Registered] at hi

section
variable {reqs : ι → Row} {rows : List Row} {s : Backed ι} {i : ι}

/-- Whoever holds the lock and is not at `users.insert` leaves nothing pending. -/
theorem Journaled.settled (h : Journaled reqs rows s) (hi : (s.regs.pc i).InLock)
    (hpc : ∀ ok, s.regs.pc i ≠ .queried ok) {pending : List (ι × Bool)}
    (hp : Pending s pending) : pending = [] ∧ ∀ j ok, s.regs.pc j ≠ .queried ok := by
  have hnone (j : ι) (ok : Bool) : s.regs.pc j ≠ .queried ok := by
    intro hj
    have hlock : s.regs.lock = some j := (h.inLock j).mp (by
      rw [hj]
      exact .inl (.inr ⟨ok, rfl⟩))
    have howner := (h.inLock i).mp hi
    obtain rfl : i = j := Option.some.inj (howner.symm.trans hlock)
    exact hpc ok hj
  cases hp with
  | none h => exact ⟨rfl, hnone⟩
  | one h => exact absurd h (hnone _ _)

variable [DecidableEq ι]

/-- What is told about each registration, when one of them moves. -/
theorem Journaled.threads (h : Journaled reqs rows s) {p : RegisterPc} {lock : Option ι}
    {journal : List (ι × Bool)} (hinLock : p.InLock ↔ lock = some i)
    (hlock : ∀ j ≠ i, s.regs.lock = some j ↔ lock = some j)
    (hlooked : p.Looked → reloaded rows (reqs i).1 = none)
    (hkept : ∀ e ∈ s.journal, e ∈ journal) (hsucceeded : p.Succeeded → (i, true) ∈ journal) :
    (∀ j, (Function.update s.regs.pc i p j).InLock ↔ lock = some j) ∧
    (∀ j, (Function.update s.regs.pc i p j).Looked → reloaded rows (reqs j).1 = none) ∧
    ∀ j, (Function.update s.regs.pc i p j).Succeeded → (j, true) ∈ journal := by
  refine ⟨?_, ?_, ?_⟩
  · exact (Function.forall_update_iff s.regs.pc fun j pc => pc.InLock ↔ lock = some j).mpr
      ⟨hinLock, fun j hj => (h.inLock j).trans (hlock j hj)⟩
  · exact (Function.forall_update_iff s.regs.pc fun j pc =>
      pc.Looked → reloaded rows (reqs j).1 = none).mpr ⟨hlooked, fun j _ => h.looked j⟩
  · exact (Function.forall_update_iff s.regs.pc fun j pc =>
      pc.Succeeded → (j, true) ∈ journal).mpr
        ⟨hsucceeded, fun j _ hj => hkept _ (h.succeeded j hj)⟩

/-- A registration moves, and none of what is told about the INSERTs changes. -/
theorem Journaled.move (h : Journaled reqs rows s) {pc : RegisterPc} {lock : Option ι}
    (hinLock : pc.InLock ↔ lock = some i)
    (hlock : ∀ j ≠ i, s.regs.lock = some j ↔ lock = some j)
    (hold : ∀ ok, s.regs.pc i ≠ .queried ok) (hnew : ∀ ok, pc ≠ .queried ok)
    (hlooked : pc.Looked → reloaded rows (reqs i).1 = none)
    (hsucceeded : pc.Succeeded → (s.regs.pc i).Succeeded) :
    Journaled reqs rows
      { s with regs := ⟨s.regs.users, lock, Function.update s.regs.pc i pc⟩ } := by
  obtain ⟨done, pending, hjournal, hpending, husers⟩ := h.users
  obtain ⟨hinLock', hlooked', hsucceeded'⟩ := h.threads hinLock hlock hlooked (fun _ he => he)
    fun hpc => h.succeeded i (hsucceeded hpc)
  refine ⟨hinLock', h.table, ⟨done, pending, hjournal, ?_, husers⟩, hlooked', h.fresh,
    hsucceeded'⟩
  cases hpending with
  | none hnone =>
    exact .none ((Function.forall_update_iff s.regs.pc fun _ pc => ∀ ok, pc ≠ .queried ok).mpr
      ⟨hnew, fun j _ => hnone j⟩)
  | @one j ok hj =>
    refine .one (i := j) ?_
    show Function.update s.regs.pc i pc j = .queried ok
    rw [Function.update_of_ne, hj]
    rintro rfl
    exact hold ok hj

/-- The INSERT of a registration. -/
theorem Journaled.query (h : Journaled reqs rows s) (hstore : Storable (reqs i))
    (hpc : s.regs.pc i = .locked) (ok : Bool) :
    Journaled reqs rows
      { regs := s.regs.goto i (.queried ok)
        table := if ok then
            s.table ++ (insertedRow (sqlInsert (reqs i).1 (reqs i).2)).toList
          else s.table
        journal := s.journal ++ [(i, ok)] } := by
  have hin : (s.regs.pc i).InLock := by
    rw [hpc]
    exact .inl (.inl rfl)
  have howner := (h.inLock i).mp hin
  have hname : reloaded rows (reqs i).1 = none := h.looked i (by
    rw [hpc]
    exact .inr (.inl rfl))
  obtain ⟨done, pending, hjournal, hpending, husers⟩ := h.users
  obtain ⟨rfl, hnone⟩ := h.settled hin (by
    rw [hpc]
    simp) hpending
  rw [List.append_nil] at hjournal
  subst hjournal
  have hinserted : (RegisterPc.queried ok).Succeeded → (i, true) ∈ s.journal ++ [(i, ok)] := by
    intro hsucceeded
    obtain rfl : ok = true := by
      simpa [RegisterPc.Succeeded, RegisterPc.Registered] using hsucceeded
    exact List.mem_append_right _ (List.mem_singleton_self _)
  obtain ⟨hinLock, hlooked, hsucceeded⟩ := h.threads (p := .queried ok)
    (iff_of_true (.inl (.inr ⟨ok, rfl⟩)) howner) (fun _ _ => Iff.rfl) (fun _ => hname)
    (fun _ he => List.mem_append_left _ he) hinserted
  refine ⟨hinLock, ?_, ⟨s.journal, [(i, ok)], rfl, .one (Function.update_self ..), husers⟩,
    hlooked, ?_, hsucceeded⟩
  · have htext := (sqlInsert_exact (reqs i).1 (reqs i).2).mpr hstore.plain
    rw [h.table, storedRows_concat, ← List.append_assoc, htext]
    cases ok with
    | true => rfl
    | false => exact (List.append_nil _).symm
  · intro e he
    rcases List.mem_append.mp he with he | he
    · exact h.fresh e he
    · obtain rfl := List.mem_singleton.mp he
      exact hname

/-- `users` gets the row that is pending. -/
theorem Journaled.insert (h : Journaled reqs rows s) {ok : Bool}
    (hpc : s.regs.pc i = .queried ok) :
    Journaled reqs rows { s with regs :=
      { s.regs.goto i (.inserted ok) with users := insertUser s.regs.users (reqs i) } } := by
  have hin : (s.regs.pc i).InLock := by
    rw [hpc]
    exact .inl (.inr ⟨ok, rfl⟩)
  have howner := (h.inLock i).mp hin
  obtain ⟨done, pending, hjournal, hpending, husers⟩ := h.users
  have hothers (j : ι) (hj : j ≠ i) (ok' : Bool) : s.regs.pc j ≠ .queried ok' := by
    intro hpcj
    have hlock := (h.inLock j).mp (by
      rw [hpcj]
      exact .inl (.inr ⟨ok', rfl⟩))
    rw [howner, Option.some.injEq] at hlock
    exact hj hlock.symm
  -- the pending INSERT is this one
  obtain rfl : pending = [(i, ok)] := by
    cases hpending with
    | none hnone => exact absurd hpc (hnone i ok)
    | @one j ok' hj =>
      by_cases hji : j = i
      · subst hji
        rw [hpc, RegisterPc.queried.injEq] at hj
        rw [hj]
      · exact absurd hj (hothers j hji ok')
  have hinserted : (RegisterPc.inserted ok).Succeeded → (s.regs.pc i).Succeeded := by
    rw [hpc]
    intro hsucceeded
    refine .inl ?_
    simpa [RegisterPc.Succeeded, RegisterPc.Registered] using hsucceeded
  obtain ⟨hinLock, hlooked, hsucceeded⟩ := h.threads (p := .inserted ok)
    (iff_of_true (.inr ⟨ok, rfl⟩) howner) (fun _ _ => Iff.rfl)
    (by simp [RegisterPc.Looked, RegisterPc.Inserting]) (fun _ he => he)
    fun hpc' => h.succeeded i (hinserted hpc')
  refine ⟨hinLock, h.table, ⟨done ++ [(i, ok)], [], ?_, .none ?_, ?_⟩, hlooked, h.fresh,
    hsucceeded⟩
  · rw [List.append_nil]
    exact hjournal
  · exact (Function.forall_update_iff s.regs.pc fun _ pc => ∀ ok, pc ≠ .queried ok).mpr
      ⟨by simp, hothers⟩
  · show insertUser s.regs.users (reqs i) = _
    rw [insertUser_eq, husers, rowsOf, rowsOf, List.map_append, firstWins_append]
    rfl

/-- **Step lemma.** -/
theorem journaled_step {s' : Backed ι} {l : RegisterLabel ι} (hstore : ∀ i, Storable (reqs i))
    (h : Journaled reqs rows s) (hs : s.step reqs l = some s') : Journaled reqs rows s' := by
  obtain ⟨i, query⟩ := l
  obtain ⟨regs, hregs, rfl⟩ := Option.map_eq_some_iff.mp hs
  have hinLock := h.inLock i
  unfold Registrations.step at hregs
  dsimp only at hregs ⊢
  cases hpc : s.regs.pc i with
  | start =>
    rw [hpc] at hinLock
    simp only [hpc] at hregs
    cases hname : s.regs.users (reqs i).1 with
    | some known =>
      simp only [hname] at hregs
      cases hregs
      refine h.move ?_ (fun _ _ => Iff.rfl) ?_ ?_ ?_ ?_
      · rw [← hinLock]
        simp [RegisterPc.InLock, RegisterPc.Inserting]
      · simp [hpc]
      · simp
      · simp [RegisterPc.Looked, RegisterPc.Inserting]
      · simp [RegisterPc.Succeeded, RegisterPc.Registered, page_ne]
    | none =>
      simp only [hname] at hregs
      cases hregs
      refine h.move ?_ (fun _ _ => Iff.rfl) ?_ ?_ ?_ ?_
      · rw [← hinLock]
        simp [RegisterPc.InLock, RegisterPc.Inserting]
      · simp [hpc]
      · simp
      · intro _
        by_contra hknown
        obtain ⟨password, hpassword⟩ := Option.ne_none_iff_exists'.mp hknown
        obtain ⟨done, pending, -, -, husers⟩ := h.users
        rw [husers, firstWins_old hpassword] at hname
        cases hname
      · simp [RegisterPc.Succeeded, RegisterPc.Registered]
  | checked =>
    simp only [hpc] at hregs
    cases hlock : s.regs.lock with
    | some j =>
      simp only [hlock] at hregs
      cases hregs
    | none =>
      simp only [hlock] at hregs
      cases hregs
      refine h.move ?_ ?_ ?_ ?_ ?_ ?_
      · simp [RegisterPc.InLock, RegisterPc.Inserting]
      · intro j hj
        rw [hlock]
        simpa using hj.symm
      · simp [hpc]
      · simp
      · exact fun _ => h.looked i (by rw [hpc]; exact .inl rfl)
      · simp [RegisterPc.Succeeded, RegisterPc.Registered]
  | locked =>
    simp only [hpc] at hregs
    cases hregs
    exact h.query (hstore i) hpc query
  | queried ok =>
    simp only [hpc] at hregs
    cases hregs
    exact h.insert hpc
  | inserted ok =>
    simp only [hpc] at hregs
    cases hregs
    have howner : s.regs.lock = some i := hinLock.mp (by
      rw [hpc]
      exact .inr ⟨ok, rfl⟩)
    refine h.move ?_ ?_ ?_ ?_ ?_ ?_
    · simp [RegisterPc.InLock, RegisterPc.Inserting]
    · intro j hj
      rw [howner]
      simpa using hj.symm
    · simp [hpc]
    · simp
    · simp [RegisterPc.Looked, RegisterPc.Inserting]
    · rw [hpc]
      simp [RegisterPc.Succeeded, RegisterPc.Registered]
  | unlocked ok =>
    rw [hpc] at hinLock
    simp only [hpc] at hregs
    cases hregs
    refine h.move ?_ (fun _ _ => Iff.rfl) ?_ ?_ ?_ ?_
    · rw [← hinLock]
      simp [RegisterPc.InLock, RegisterPc.Inserting]
    · simp [hpc]
    · simp
    · simp [RegisterPc.Looked, RegisterPc.Inserting]
    · rw [hpc]
      cases ok <;> simp [RegisterPc.Succeeded, RegisterPc.Registered, page_ne]
  | answered page =>
    simp only [hpc] at hregs
    cases hregs

/-- **The journal tells it all**: what `users` and the table hold. -/
theorem journal_reachable (hstore : ∀ i, Storable (reqs i))
    (h : Reachable (BackedInitial rows) (Backed.step reqs) (fun _ _ => True) s) :
    Journaled reqs rows s :=
  h.invariant (fun _ h => journaled_initial h) fun _ _ _ h _ hs => journaled_step hstore h hs

end

-- ---------------------------------------------------------------------------
-- The table, loaded again
-- ---------------------------------------------------------------------------

section
variable {reqs : ι → Row} {rows : List Row} {s : Backed ι} {name password : List UInt8}

theorem mem_storedRows {journal : List (ι × Bool)} {row : Row} :
    row ∈ storedRows reqs journal ↔ ∃ i, (i, true) ∈ journal ∧ reqs i = row := by
  simp [storedRows, rowsOf]

/-- A name of the journal was not in the table. -/
theorem Journaled.not_loaded (h : Journaled reqs rows s)
    (hmem : (name, password) ∈ rowsOf reqs s.journal) : reloaded rows name = none := by
  obtain ⟨e, he, heq⟩ := List.mem_map.mp hmem
  have hfresh := h.fresh e he
  rwa [heq] at hfresh

theorem storedRows_subset {journal : List (ι × Bool)} {row : Row}
    (h : row ∈ storedRows reqs journal) : row ∈ rowsOf reqs journal := by
  obtain ⟨i, hi, rfl⟩ := mem_storedRows.mp h
  exact List.mem_map_of_mem (f := fun e : ι × Bool => reqs e.1) hi

/-- A name that a row of the table has is loaded. -/
theorem reloaded_isSome (h : (name, password) ∈ rows.map asStrings) :
    (reloaded rows name).isSome := by
  rw [reloaded_eq]
  exact lastWins_isSome (.inl h)

theorem Journaled.first_of_loaded (h : Journaled reqs rows s) {known : List UInt8}
    (hknown : reloaded rows name = some known) : firstPassword reqs s.journal name = none := by
  rw [firstPassword, firstWins_other]
  rintro ⟨name', password'⟩ hmem rfl
  rw [h.not_loaded hmem] at hknown
  cases hknown

/-- When nothing is pending, `users` has what was loaded, and the first password for a name. -/
theorem Journaled.users_iff (h : Journaled reqs rows s)
    (hquiet : ∀ i ok, s.regs.pc i ≠ .queried ok) :
    s.regs.users name = some password ↔
      reloaded rows name = some password ∨ firstPassword reqs s.journal name = some password := by
  obtain ⟨done, pending, hjournal, hpending, husers⟩ := h.users
  obtain rfl : pending = [] := by
    cases hpending with
    | none => rfl
    | one hi => exact absurd hi (hquiet _ _)
  rw [List.append_nil] at hjournal
  subst hjournal
  rw [husers]
  cases hloaded : reloaded rows name with
  | some known =>
    rw [firstWins_old hloaded, h.first_of_loaded hloaded]
    simp
  | none =>
    rw [firstWins_eq (n := fun _ => none) hloaded]
    exact ⟨.inr, fun hor => hor.resolve_left (Option.some_ne_none password).symm⟩

theorem Journaled.table_map (hstore : ∀ i, Storable (reqs i)) (h : Journaled reqs rows s) :
    s.table.map asStrings = rows.map asStrings ++ storedRows reqs s.journal := by
  rw [h.table, List.map_append]
  congr 1
  rw [storedRows, rowsOf, List.map_map]
  exact List.map_congr_left fun e _ => (hstore e.1).strings

/-- **A restart** is not noticed, whatever the order in which the table is read, exactly if the
table had no two passwords for a name and the first INSERT of each name is the one that it has
rows of. An account whose registration has been confirmed is there after it exactly if no INSERT
of its name with another password has succeeded. -/
theorem restart_iff [DecidableEq ι] (hstore : ∀ i, Storable (reqs i))
    (h : Reachable (BackedInitial rows) (Backed.step reqs) (fun _ _ => True) s) :
    ((∀ i ok, s.regs.pc i ≠ .queried ok) →
      ((∀ rows' : List Row, rows'.Perm s.table → reloaded rows' = s.regs.users) ↔
        OneEach (rows.map asStrings) ∧
          ∀ name password, firstPassword reqs s.journal name = some password ↔
            (name, password) ∈ storedRows reqs s.journal)) ∧
    ∀ i, s.regs.pc i = .answered (bytes "/log.html") →
      ((∀ rows' : List Row, rows'.Perm s.table → ∀ w : World, w.users = reloaded rows' →
          w.Accepts (reqs i).1 (reqs i).2) ↔
        ∀ password, ((reqs i).1, password) ∈ storedRows reqs s.journal →
          password = (reqs i).2) := by
  have hjournal := journal_reachable hstore h
  constructor
  · intro hquiet
    simp only [reloaded_eq]
    rw [loaded_iff, hjournal.table_map hstore]
    constructor
    · intro hgraph
      refine ⟨fun name p p' hp hp' => ?_, fun name password => ⟨fun hfirst => ?_, fun hmem => ?_⟩⟩
      · have hp := (hgraph name p).mpr (List.mem_append_left _ hp)
        have hp' := (hgraph name p').mpr (List.mem_append_left _ hp')
        exact Option.some.inj (hp.symm.trans hp')
      · have husers := (hjournal.users_iff hquiet).mpr (.inr hfirst)
        refine (List.mem_append.mp ((hgraph name password).mp husers)).resolve_left fun hold => ?_
        obtain ⟨known, hknown⟩ := Option.isSome_iff_exists.mp (reloaded_isSome hold)
        rw [hjournal.first_of_loaded hknown] at hfirst
        cases hfirst
      · have husers := (hgraph name password).mpr (List.mem_append_right _ hmem)
        refine ((hjournal.users_iff hquiet).mp husers).resolve_left ?_
        rw [hjournal.not_loaded (storedRows_subset hmem)]
        exact (Option.some_ne_none password).symm
    · rintro ⟨hone, hfirst⟩ name password
      rw [hjournal.users_iff hquiet, hfirst, List.mem_append, reloaded_eq, hone.loaded_iff]
  · intro i hi
    have hmem : reqs i ∈ storedRows reqs s.journal :=
      mem_storedRows.mpr ⟨i, hjournal.succeeded i (.inr (.inr (.inr hi))), rfl⟩
    have hnew := hjournal.not_loaded (storedRows_subset hmem)
    have horders := @loaded_all_orders_iff _ _ _ _ (reqs i).1 (reqs i).2 asStrings s.table
    rw [hjournal.table_map hstore] at horders
    have hside (password : List UInt8) :
        ((reqs i).1, password) ∈ rows.map asStrings ++ storedRows reqs s.journal ↔
          ((reqs i).1, password) ∈ storedRows reqs s.journal := by
      refine ⟨fun hor => (List.mem_append.mp hor).resolve_left fun hold => ?_,
        List.mem_append_right _⟩
      have hsome := reloaded_isSome hold
      rw [hnew] at hsome
      cases hsome
    constructor
    · intro hall password hpassword
      refine (horders.mp fun rows' hperm => ?_).2 password ((hside password).mpr hpassword)
      have haccepts := hall rows' hperm ⟨fun _ => none, reloaded rows', fun _ => true⟩ rfl
      rw [← reloaded_eq]
      exact accepts_iff.mp haccepts
    · intro hone rows' hperm w hw
      rw [accepts_iff, hw, reloaded_eq]
      exact horders.mpr ⟨(hside _).mpr hmem,
        fun password hpassword => hone password ((hside password).mp hpassword)⟩ rows' hperm

end

/-- An empty table. -/
def noAccounts : Backed Bool := ⟨noRegistration, [], []⟩

theorem noAccounts_initial : BackedInitial [] noAccounts := ⟨noRegistration_initial, rfl, rfl, rfl⟩

theorem sameName_storable (b : Bool) : Storable (sameName b) := by
  cases b
  · exact ⟨by decide +kernel, by decide +kernel⟩
  · exact ⟨by decide +kernel, by decide +kernel⟩

/-- Two confirmed registrations of one name: a restart may lose either of them. -/
theorem restart_iff_twice : ∃ s : Backed Bool,
    s.regs.pc true = .answered (bytes "/log.html") ∧
    s.regs.pc false = .answered (bytes "/log.html") ∧
    (¬ ∀ rows' : List Row, rows'.Perm s.table → reloaded rows' = s.regs.users) ∧
    ¬ ∀ rows' : List Row, rows'.Perm s.table → ∀ w : World, w.users = reloaded rows' →
      w.Accepts (bytes "a") (bytes "b") := by
  have hrun : (runSteps (Backed.step sameName) noAccounts
      ([⟨true, true⟩, ⟨false, true⟩] ++ List.replicate 5 ⟨true, true⟩ ++
        List.replicate 5 ⟨false, true⟩)).map (fun s => (s.regs.pc true, s.regs.pc false,
          s.journal)) =
      some (.answered (bytes "/log.html"), .answered (bytes "/log.html"),
        [(true, true), (false, true)]) := by
    decide +kernel
  obtain ⟨s, hs, hval⟩ := Option.map_eq_some_iff.mp hrun
  simp only [Prod.mk.injEq] at hval
  obtain ⟨htrue, hfalse, hjournal⟩ := hval
  have hreach := Reachable.of_run (fun _ _ _ => trivial) (.init noAccounts_initial) hs
  obtain ⟨hall, hkept⟩ := restart_iff sameName_storable hreach
  have hstored : (bytes "a", bytes "c") ∈ storedRows sameName s.journal := by
    rw [hjournal]
    decide +kernel
  have hquiet : ∀ i ok, s.regs.pc i ≠ .queried ok := by
    intro i ok
    cases i
    · rw [hfalse]
      simp
    · rw [htrue]
      simp
  refine ⟨s, htrue, hfalse, fun h => ?_, fun h => ?_⟩
  · have hfirst := (((hall hquiet).mp h).2 (bytes "a") (bytes "c")).mpr hstored
    rw [hjournal] at hfirst
    exact absurd hfirst (by decide +kernel)
  · exact absurd ((hkept true htrue).mp h (bytes "c") hstored) (by decide +kernel)

end TinyHTTP.Http
