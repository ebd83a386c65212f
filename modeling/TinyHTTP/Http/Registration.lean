import TinyHTTP.Http.Users

/-!
# TinyHTTP — concurrent registrations

The registration branch looks the name up before it takes `m_lock`, and does not
look again. Any number of workers are in the branch here, each with its own request;
a step is one of them taking its next access to what they share. `mysql_query`
succeeds or fails as the environment likes.

* `register_alone` — one worker that is not interrupted does what `World.register` says.
* `registration_atomic` — one registration for each name succeeds, and its password is
  the one that is accepted, as long as no worker takes the lock for a name that has
  been registered since its look.
-/

namespace TinyHTTP.Http

open TinyHTTP.Lib

/-- Where a worker is in the registration branch. -/
inductive RegisterPc where
  | start
  /-- `users.find(name) == users.end()`: at `m_lock.lock()` -/
  | checked
  /-- at `mysql_query` -/
  | locked
  /-- at `users.insert`, with the outcome of `mysql_query` -/
  | queried (ok : Bool)
  /-- at `m_lock.unlock()` -/
  | inserted (ok : Bool)
  /-- at the answer -/
  | unlocked (ok : Bool)
  /-- `m_url` holds the page -/
  | answered (page : List UInt8)
  deriving DecidableEq

/-- What the registrations share, and where each of them is. -/
structure Registrations (ι : Type) where
  users : List UInt8 → Option (List UInt8)
  /-- the registration that holds `m_lock` -/
  lock : Option ι
  pc : ι → RegisterPc

variable {ι : Type}

/-- A step of one registration; `query` says whether `mysql_query` succeeds. -/
structure RegisterLabel (ι : Type) where
  worker : ι
  query : Bool

def Registrations.goto [DecidableEq ι] (s : Registrations ι) (i : ι) (pc : RegisterPc) :
    Registrations ι :=
  { s with pc := Function.update s.pc i pc }

/-- `std::map::insert` keeps the value of a key that is there. -/
def insertUser (users : List UInt8 → Option (List UInt8)) (row : Row) :
    List UInt8 → Option (List UInt8) :=
  match users row.1 with
  | some _ => users
  | none => Function.update users row.1 (some row.2)

/-- The registration branch; registration `i` is for `reqs i`. -/
def Registrations.step [DecidableEq ι] (reqs : ι → Row) (s : Registrations ι)
    (l : RegisterLabel ι) : Option (Registrations ι) :=
  let i := l.worker
  match s.pc i with
  | .start =>
    match s.users (reqs i).1 with
    | some _ => some (s.goto i (.answered (bytes "/registerError.html")))
    | none => some (s.goto i .checked)
  | .checked =>
    match s.lock with
    | some _ => none
    | none => some { s.goto i .locked with lock := some i }
  | .locked => some (s.goto i (.queried l.query))
  | .queried ok => some { s.goto i (.inserted ok) with users := insertUser s.users (reqs i) }
  | .inserted ok => some { s.goto i (.unlocked ok) with lock := none }
  | .unlocked ok =>
    some (s.goto i (.answered (if ok then bytes "/log.html" else bytes "/registerError.html")))
  | .answered _ => none

/-- No registration has begun. -/
def RegisterInitial (s : Registrations ι) : Prop :=
  s.lock = none ∧ ∀ i, s.pc i = .start

/-- The registration is answered, or about to be, with the page of success, and `users` has been
written. -/
def RegisterPc.Registered (pc : RegisterPc) : Prop :=
  pc = .inserted true ∨ pc = .unlocked true ∨ pc = .answered (bytes "/log.html")

/-- The INSERT of the registration has succeeded. -/
def RegisterPc.Succeeded (pc : RegisterPc) : Prop :=
  pc = .queried true ∨ pc.Registered

/-- The registration holds the lock, and has not written `users` yet. -/
def RegisterPc.Inserting (pc : RegisterPc) : Prop :=
  pc = .locked ∨ ∃ ok, pc = .queried ok

/-- The registration holds the lock. -/
def RegisterPc.InLock (pc : RegisterPc) : Prop :=
  pc.Inserting ∨ ∃ ok, pc = .inserted ok

/-- A worker that takes the lock finds its name still absent. -/
def StillAbsent (reqs : ι → Row) (s : Registrations ι) (l : RegisterLabel ι) : Prop :=
  s.pc l.worker = .checked → s.lock = none → s.users (reqs l.worker).1 = none

instance [DecidableEq ι] (reqs : ι → Row) (s : Registrations ι) (l : RegisterLabel ι) :
    Decidable (StillAbsent reqs s l) :=
  inferInstanceAs (Decidable (_ → _))

-- ---------------------------------------------------------------------------
-- One registration at a time
-- ---------------------------------------------------------------------------

/-- A registration that no other one interrupts does what `World.register` does. -/
theorem register_alone [DecidableEq ι] {reqs : ι → Row} {s : Registrations ι} {w : World} {i : ι}
    (hw : w.users = s.users) (hstart : s.pc i = .start) (hlock : s.lock = none) :
    ∃ n s', runSteps (Registrations.step reqs) s (List.replicate n
        ⟨i, w.mysqlQuery (sqlInsert (reqs i).1 (reqs i).2)⟩) = some s' ∧
      s'.users = (w.register (reqs i).1 (reqs i).2).1.users ∧
      s'.pc i = .answered (w.register (reqs i).1 (reqs i).2).2 ∧ s'.lock = none ∧
      ∀ j ≠ i, s'.pc j = s.pc j := by
  cases hname : s.users (reqs i).1 with
  | some known =>
    refine ⟨1, s.goto i (.answered (bytes "/registerError.html")), ?_, ?_⟩
    · simp [runSteps, Registrations.step, hstart, hname]
    · rw [register_known (w := w) _ (by rw [hw, hname]; exact Option.some_ne_none _)]
      exact ⟨hw.symm, Function.update_self .., hlock, fun j hj => Function.update_of_ne hj ..⟩
  | none =>
    rw [register_new (w := w) _ (hw ▸ hname)]
    generalize w.mysqlQuery (sqlInsert (reqs i).1 (reqs i).2) = ok
    refine ⟨6, ⟨insertUser s.users (reqs i), none, Function.update s.pc i (.answered
      (if ok then bytes "/log.html" else bytes "/registerError.html"))⟩, ?_, ?_⟩
    · simp [runSteps, Registrations.step, Registrations.goto, hstart, hname, hlock]
    · refine ⟨?_, Function.update_self .., rfl, fun j hj => Function.update_of_ne hj ..⟩
      simp only [insertUser, hname, hw]

-- ---------------------------------------------------------------------------
-- The invariant
-- ---------------------------------------------------------------------------

/-- What holds of a registration at `pc`. -/
structure RegisterFine (row : Row) (users : List UInt8 → Option (List UInt8)) (owner : Prop)
    (pc : RegisterPc) : Prop where
  inLock : pc.InLock ↔ owner
  absent : pc.Inserting → users row.1 = none
  present : pc.Registered → users row.1 = some row.2

structure Atomic (reqs : ι → Row) (s : Registrations ι) : Prop where
  fine : ∀ i, RegisterFine (reqs i) s.users (s.lock = some i) (s.pc i)
  unique : ∀ i j, (s.pc i).Succeeded → (s.pc j).Succeeded → (reqs i).1 = (reqs j).1 → i = j

theorem atomic_initial {reqs : ι → Row} {s : Registrations ι} (h : RegisterInitial s) :
    Atomic reqs s := by
  obtain ⟨hlock, hpc⟩ := h
  refine ⟨?_, ?_⟩
  · intro i
    rw [hlock, hpc]
    refine ⟨iff_of_false ?_ nofun, ?_, ?_⟩ <;>
      simp [RegisterPc.InLock, RegisterPc.Inserting, RegisterPc.Registered]
  · intro i j hi
    rw [hpc] at hi
    simp [RegisterPc.Succeeded, RegisterPc.Registered] at hi

/-- Only one registration is between the lock and the unlock. -/
theorem Atomic.not_inLock {reqs : ι → Row} {s : Registrations ι} {i j : ι} (h : Atomic reqs s)
    (hi : (s.pc i).InLock) (hj : j ≠ i) : ¬ (s.pc j).InLock := by
  intro hpc
  have hlock := (h.fine i).inLock.mp hi
  rw [(h.fine j).inLock.mp hpc, Option.some.injEq] at hlock
  exact hj hlock

section
variable [DecidableEq ι]

/-- One registration moves. -/
theorem Atomic.move {reqs : ι → Row} {s : Registrations ι} {i : ι} {pc : RegisterPc}
    {users : List UInt8 → Option (List UInt8)} {lock : Option ι} (h : Atomic reqs s)
    (hi : RegisterFine (reqs i) users (lock = some i) pc)
    (hother : ∀ j ≠ i, RegisterFine (reqs j) users (lock = some j) (s.pc j))
    (hsucceeded : pc.Succeeded → (s.pc i).Succeeded ∨
      ∀ j ≠ i, (s.pc j).Succeeded → (reqs j).1 ≠ (reqs i).1) :
    Atomic reqs ⟨users, lock, Function.update s.pc i pc⟩ := by
  have hfirst {j : ι} (hj : j ≠ i) (hpc : pc.Succeeded) (hpcj : (s.pc j).Succeeded) :
      (reqs j).1 ≠ (reqs i).1 := by
    rcases hsucceeded hpc with hold | hnew
    · exact fun hname => hj (h.unique j i hpcj hold hname)
    · exact hnew j hj hpcj
  refine ⟨?_, ?_⟩
  · exact (Function.forall_update_iff s.pc fun j pc =>
      RegisterFine (reqs j) users (lock = some j) pc).mpr ⟨hi, hother⟩
  · intro j k hj hk hname
    replace hj : (Function.update s.pc i pc j).Succeeded := hj
    replace hk : (Function.update s.pc i pc k).Succeeded := hk
    by_cases hji : j = i <;> by_cases hki : k = i
    · rw [hji, hki]
    · subst hji
      rw [Function.update_self] at hj
      rw [Function.update_of_ne hki] at hk
      exact absurd hname.symm (hfirst hki hj hk)
    · subst hki
      rw [Function.update_self] at hk
      rw [Function.update_of_ne hji] at hj
      exact absurd hname (hfirst hji hk hj)
    · rw [Function.update_of_ne hji] at hj
      rw [Function.update_of_ne hki] at hk
      exact h.unique j k hj hk hname

theorem insertUser_new {users : List UInt8 → Option (List UInt8)} {row : Row}
    (h : users row.1 = none) : insertUser users row row.1 = some row.2 := by
  simp only [insertUser, h, Function.update_self]

theorem insertUser_old {users : List UInt8 → Option (List UInt8)} {name password : List UInt8}
    (row : Row) (h : users name = some password) : insertUser users row name = some password := by
  cases hrow : users row.1 with
  | some known =>
    simp only [insertUser, hrow]
    exact h
  | none =>
    simp only [insertUser, hrow]
    rw [Function.update_of_ne ?_]
    · exact h
    · rintro rfl
      rw [hrow] at h
      cases h

theorem page_ne : bytes "/registerError.html" ≠ bytes "/log.html" := by decide +kernel

/-- **Step lemma.** -/
theorem atomic_step {reqs : ι → Row} {s s' : Registrations ι} {l : RegisterLabel ι}
    (h : Atomic reqs s) (hok : StillAbsent reqs s l) (hs : s.step reqs l = some s') :
    Atomic reqs s' := by
  obtain ⟨i, query⟩ := l
  have hi := h.fine i
  have hsame (j : ι) (_ : j ≠ i) := h.fine j
  unfold Registrations.step at hs
  simp only at hs
  cases hpc : s.pc i with
  | start =>
    rw [hpc] at hi
    simp only [hpc] at hs
    cases hname : s.users (reqs i).1 with
    | some known =>
      simp only [hname] at hs
      cases hs
      refine h.move ⟨?_, ?_, ?_⟩ hsame ?_
      · rw [← hi.inLock]
        simp [RegisterPc.InLock, RegisterPc.Inserting]
      · simp [RegisterPc.Inserting]
      · simp [RegisterPc.Registered, page_ne]
      · simp [RegisterPc.Succeeded, RegisterPc.Registered, page_ne]
    | none =>
      simp only [hname] at hs
      cases hs
      refine h.move ⟨?_, ?_, ?_⟩ hsame ?_
      · rw [← hi.inLock]
        simp [RegisterPc.InLock, RegisterPc.Inserting]
      · simp [RegisterPc.Inserting]
      · simp [RegisterPc.Registered]
      · simp [RegisterPc.Succeeded, RegisterPc.Registered]
  | checked =>
    simp only [hpc] at hs
    cases hlock : s.lock with
    | some j => simp only [hlock] at hs; cases hs
    | none =>
      simp only [hlock] at hs
      cases hs
      refine h.move ⟨?_, ?_, ?_⟩ ?_ ?_
      · simp [RegisterPc.InLock, RegisterPc.Inserting]
      · exact fun _ => hok hpc hlock
      · simp [RegisterPc.Registered]
      · intro j hj
        have hfree : ¬ (s.pc j).InLock := fun hin => by
          rw [(h.fine j).inLock, hlock] at hin
          cases hin
        refine ⟨iff_of_false hfree ?_, (h.fine j).absent, (h.fine j).present⟩
        exact fun he => hj (Option.some.inj he).symm
      · simp [RegisterPc.Succeeded, RegisterPc.Registered]
  | locked =>
    rw [hpc] at hi
    simp only [hpc] at hs
    cases hs
    have hin : (s.pc i).InLock := by
      rw [hpc]
      exact .inl (.inl rfl)
    have habsent := hi.absent (.inl rfl)
    refine h.move ⟨?_, fun _ => habsent, ?_⟩ hsame ?_
    · rw [← hi.inLock]
      simp [RegisterPc.InLock, RegisterPc.Inserting]
    · simp [RegisterPc.Registered]
    · -- a registration of the same name that has succeeded has left the lock, so its name is there
      refine fun _ => .inr fun j hj hpcj hname => ?_
      rcases hpcj with hq | hregistered
      · refine h.not_inLock hin hj ?_
        rw [hq]
        exact .inl (.inr ⟨true, rfl⟩)
      · have hpresent := (h.fine j).present hregistered
        rw [hname, habsent] at hpresent
        cases hpresent
  | queried ok =>
    rw [hpc] at hi
    simp only [hpc] at hs
    cases hs
    have hin : (s.pc i).InLock := by
      rw [hpc]
      exact .inl (.inr ⟨ok, rfl⟩)
    refine show Atomic reqs ⟨insertUser s.users (reqs i), s.lock, _⟩ from
      h.move ⟨?_, ?_, ?_⟩ ?_ ?_
    · rw [← hi.inLock]
      simp [RegisterPc.InLock, RegisterPc.Inserting]
    · simp [RegisterPc.Inserting]
    · exact fun _ => insertUser_new (hi.absent (.inr ⟨ok, rfl⟩))
    · intro j hj
      refine ⟨(h.fine j).inLock, fun hins => ?_, fun hreg => ?_⟩
      · exact absurd (.inl hins) (h.not_inLock hin hj)
      · exact insertUser_old _ ((h.fine j).present hreg)
    · rw [hpc]
      intro hsucceeded
      refine .inl (.inl ?_)
      simpa [RegisterPc.Succeeded, RegisterPc.Registered] using hsucceeded
  | inserted ok =>
    rw [hpc] at hi
    simp only [hpc] at hs
    cases hs
    have hin : (s.pc i).InLock := by
      rw [hpc]
      exact .inr ⟨ok, rfl⟩
    refine h.move ⟨?_, ?_, ?_⟩ ?_ ?_
    · simp [RegisterPc.InLock, RegisterPc.Inserting]
    · simp [RegisterPc.Inserting]
    · intro hreg
      refine hi.present (.inl ?_)
      simpa [RegisterPc.Registered] using hreg
    · intro j hj
      exact ⟨iff_of_false (h.not_inLock hin hj) nofun, (h.fine j).absent, (h.fine j).present⟩
    · rw [hpc]
      intro hsucceeded
      refine .inl (.inr (.inl ?_))
      simpa [RegisterPc.Succeeded, RegisterPc.Registered] using hsucceeded
  | unlocked ok =>
    rw [hpc] at hi
    simp only [hpc] at hs
    cases hs
    have hok : (RegisterPc.answered (if ok then bytes "/log.html"
        else bytes "/registerError.html")).Registered → ok = true := by
      cases ok <;> simp [RegisterPc.Registered, page_ne]
    refine h.move ⟨?_, ?_, ?_⟩ hsame ?_
    · rw [← hi.inLock]
      simp [RegisterPc.InLock, RegisterPc.Inserting]
    · simp [RegisterPc.Inserting]
    · intro hreg
      refine hi.present (.inr (.inl ?_))
      rw [hok hreg]
    · rw [hpc]
      rintro (hq | hreg)
      · cases hq
      · refine .inl (.inr (.inr (.inl ?_)))
        rw [hok hreg]
  | answered page =>
    simp only [hpc] at hs
    cases hs

theorem atomic_reachable {reqs : ι → Row} {s : Registrations ι}
    (h : Reachable RegisterInitial (Registrations.step reqs) (StillAbsent reqs) s) :
    Atomic reqs s :=
  h.invariant (fun _ h => atomic_initial h) fun _ _ _ ht hok hs => atomic_step ht hok hs

/-- **Registration is atomic**, as long as a worker that takes the lock finds its name still
absent. -/
theorem registration_atomic {reqs : ι → Row} {s : Registrations ι}
    (h : Reachable RegisterInitial (Registrations.step reqs) (StillAbsent reqs) s) :
    (∀ i j, s.pc i = .answered (bytes "/log.html") → s.pc j = .answered (bytes "/log.html") →
      (reqs i).1 = (reqs j).1 → i = j) ∧
    (∀ i j, (s.pc i).Succeeded → (s.pc j).Succeeded → (reqs i).1 = (reqs j).1 → i = j) ∧
    ∀ i, (s.pc i).Registered → ∀ w : World, w.users = s.users →
      ∀ password, w.Accepts (reqs i).1 password ↔ password = (reqs i).2 := by
  have hatomic := atomic_reachable h
  refine ⟨?_, hatomic.unique, ?_⟩
  · intro i j hi hj
    exact hatomic.unique i j (.inr (.inr (.inr hi))) (.inr (.inr (.inr hj)))
  · intro i hi w hw password
    rw [accepts_iff, hw, (hatomic.fine i).present hi, Option.some.injEq, eq_comm]

end

/-- Two clients that want the same name. -/
def sameName (b : Bool) : Row := (bytes "a", if b then bytes "b" else bytes "c")

def noRegistration : Registrations Bool := ⟨fun _ => none, none, fun _ => .start⟩

theorem noRegistration_initial : RegisterInitial noRegistration := ⟨rfl, fun _ => rfl⟩

/-- One after the other: the second registration is refused. -/
theorem registration_atomic_twice : ∃ s : Registrations Bool,
    s.pc true = .answered (bytes "/log.html") ∧
    s.pc false = .answered (bytes "/registerError.html") ∧
    ∀ w : World, w.users = s.users → ∀ password, w.Accepts (bytes "a") password ↔
      password = bytes "b" := by
  have hrun : (runSteps (guarded (fun s l => decide (StillAbsent sameName s l))
      (Registrations.step sameName)) noRegistration
      (List.replicate 6 ⟨true, true⟩ ++ [⟨false, true⟩])).map (fun s => (s.pc true, s.pc false)) =
      some (.answered (bytes "/log.html"), .answered (bytes "/registerError.html")) := by
    decide +kernel
  obtain ⟨s, hs, hval⟩ := Option.map_eq_some_iff.mp hrun
  obtain ⟨htrue, hfalse⟩ := Prod.mk.inj hval
  have hreach := Reachable.of_guarded (fun _ _ h => of_decide_eq_true h)
    (.init noRegistration_initial) hs
  exact ⟨s, htrue, hfalse,
    (registration_atomic hreach).2.2 true (.inr (.inr htrue))⟩

/-- Both look the name up before either takes the lock, and both are answered with `/log.html`. -/
theorem registered_twice : ¬ ∀ (reqs : Bool → Row) (s : Registrations Bool),
    Reachable RegisterInitial (Registrations.step reqs) (fun _ _ => True) s →
    ∀ i j, s.pc i = .answered (bytes "/log.html") → s.pc j = .answered (bytes "/log.html") →
      (reqs i).1 = (reqs j).1 → i = j := by
  intro hall
  have hrun : (runSteps (Registrations.step sameName) noRegistration
      ([⟨true, true⟩, ⟨false, true⟩] ++ List.replicate 5 ⟨true, true⟩ ++
        List.replicate 5 ⟨false, true⟩)).map (fun s => (s.pc true, s.pc false)) =
      some (.answered (bytes "/log.html"), .answered (bytes "/log.html")) := by
    decide +kernel
  obtain ⟨s, hs, hval⟩ := Option.map_eq_some_iff.mp hrun
  obtain ⟨htrue, hfalse⟩ := Prod.mk.inj hval
  have hreach := Reachable.of_run (fun _ _ _ => trivial) (.init noRegistration_initial) hs
  exact absurd (hall sameName s hreach true false htrue hfalse rfl) (by decide)

end TinyHTTP.Http
