import Mathlib.Data.Set.Function
import TinyHTTP.Lib.Run
import TinyHTTP.Version01.ServeRequest

/-!
# TinyHTTP — version_01: sockets and threads

`main` accepts a socket into its variable `client_sock`, and gives the thread that it
creates the address of that variable. A thread that reads the variable late finds a
later socket there.

* `handed_step` — thread `n` serves socket `n` and closes it, as long as no socket is
  accepted before every thread has read the variable, and every method is known.
* `sockets_handed_out` — so does a run; after the first step that is not so, a socket
  has no thread or stays open.
-/

namespace TinyHTTP.Version01

open TinyHTTP.Lib

/-- A file descriptor. -/
abbrev Fd := Nat

/-- Where `main` is in its loop. -/
inductive MainPc where
  | accepting
  /-- at `pthread_create` -/
  | creating
  deriving DecidableEq

/-- Where a thread is in `accept_request`. -/
inductive ThreadPc where
  | absent
  /-- before `*((int*)client)` -/
  | created
  /-- `sock` is its copy of the descriptor; so much is left to do with it -/
  | serving (sock : Fd) (calls : List SockCall)
  | returned
  deriving DecidableEq

/-- Sockets and threads have the number of their `accept` and `pthread_create`. -/
structure Server where
  /-- the socket behind each descriptor that is open -/
  sockets : Fd → Option Nat
  clientSock : Fd
  main : MainPc
  accepted : Nat
  created : Nat
  pc : Nat → ThreadPc
  /-- the socket that a thread has found behind its descriptor -/
  serves : Nat → Option Nat
  /-- the sockets behind the descriptors that a thread has closed -/
  closes : Nat → List (Option Nat)

inductive ServerLabel where
  /-- `accept` returns a descriptor -/
  | accept (sock : Fd)
  /-- `pthread_create` -/
  | create
  /-- a thread reads `*client`, and this is its request -/
  | start (t : Nat) (sys : System) (garbage : Mem) (input : List UInt8)
  /-- the next call of a thread, or its `return` -/
  | run (t : Nat)

def Server.goto (s : Server) (t : Nat) (pc : ThreadPc) : Server :=
  { s with pc := Function.update s.pc t pc }

/-- `close(sock)` in thread `t` -/
def Server.close (s : Server) (t : Nat) (sock : Fd) : Server :=
  { s with
    sockets := Function.update s.sockets sock none
    closes := Function.update s.closes t (s.closes t ++ [s.sockets sock]) }

def Server.step (s : Server) : ServerLabel → Option Server
  | .accept sock =>
    if s.main = .accepting ∧ s.sockets sock = none then
      some { s with
        sockets := Function.update s.sockets sock (some s.accepted)
        clientSock := sock
        main := .creating
        accepted := s.accepted + 1 }
    else none
  | .create =>
    if s.main = .creating then
      some { s.goto s.created .created with main := .accepting, created := s.created + 1 }
    else none
  | .start t sys garbage input =>
    match s.pc t, socketCalls sys garbage input with
    | .created, .ok calls =>
      some { s.goto t (.serving s.clientSock calls) with
        serves := Function.update s.serves t (s.sockets s.clientSock) }
    | _, _ => none
  | .run t =>
    match s.pc t with
    | .serving sock (.close :: calls) => some ((s.close t sock).goto t (.serving sock calls))
    | .serving sock (_ :: calls) => some (s.goto t (.serving sock calls))
    | .serving _ [] => some (s.goto t .returned)
    | _ => none

/-- Nothing has been accepted. -/
structure ServerInitial (s : Server) : Prop where
  sockets : ∀ sock, s.sockets sock = none
  main : s.main = .accepting
  accepted : s.accepted = 0
  created : s.created = 0
  pc : ∀ t, s.pc t = .absent
  closes : ∀ t, s.closes t = []

/-- The thread has read `*client`. -/
def Server.Started (s : Server) (t : Nat) : Prop := s.pc t ≠ .absent ∧ s.pc t ≠ .created

/-- `main` is at `accept`, and every thread has read `*client`. -/
def Server.AllStarted (s : Server) : Prop :=
  s.main = .accepting ∧ ∀ t < s.created, s.pc t ≠ .created

/-- `main` is at `accept`, and every thread has returned. -/
def Server.AllReturned (s : Server) : Prop :=
  s.main = .accepting ∧ ∀ t < s.created, s.pc t = .returned

/-- Every socket has a thread of its own, which closes it. -/
structure HandedOut (s : Server) : Prop where
  mapsTo : Set.MapsTo s.serves {t | s.Started t} (some '' Set.Iio s.accepted)
  injOn : Set.InjOn s.serves {t | s.Started t}
  bijOn : s.AllStarted → Set.BijOn s.serves (Set.Iio s.created) (some '' Set.Iio s.accepted)
  closedOnce : ∀ t, s.pc t = .returned → s.closes t = [s.serves t]

/-- No socket is accepted while a thread has not read `*client`, and no request has a method that
the server does not know. -/
def Orderly (s : Server) : ServerLabel → Prop
  | .accept _ => ∀ t < s.created, s.pc t ≠ .created
  | .start _ _ _ input => Supported input
  | _ => True

instance (s : Server) (l : ServerLabel) : Decidable (Orderly s l) :=
  match l with
  | .accept _ => inferInstanceAs (Decidable (∀ t < s.created, s.pc t ≠ .created))
  | .create | .run _ => inferInstanceAs (Decidable True)
  | .start _ _ _ input => inferInstanceAs (Decidable (Supported input))

-- ---------------------------------------------------------------------------
-- Steps
-- ---------------------------------------------------------------------------

/-- What a step does. -/
inductive ServerCase (s : Server) : ServerLabel → Server → Prop
  | accept {sock : Fd} (hmain : s.main = .accepting) (hfree : s.sockets sock = none) :
      ServerCase s (.accept sock) { s with
        sockets := Function.update s.sockets sock (some s.accepted)
        clientSock := sock
        main := .creating
        accepted := s.accepted + 1 }
  | create (hmain : s.main = .creating) :
      ServerCase s .create
        { s.goto s.created .created with main := .accepting, created := s.created + 1 }
  | start {t : Nat} {sys : System} {garbage : Mem} {input : List UInt8} {calls : List SockCall}
      (ht : s.pc t = .created) (hcalls : socketCalls sys garbage input = .ok calls) :
      ServerCase s (.start t sys garbage input) { s.goto t (.serving s.clientSock calls) with
        serves := Function.update s.serves t (s.sockets s.clientSock) }
  | close {t : Nat} {sock : Fd} {calls : List SockCall}
      (ht : s.pc t = .serving sock (.close :: calls)) :
      ServerCase s (.run t) ((s.close t sock).goto t (.serving sock calls))
  | call {t : Nat} {sock : Fd} {c : SockCall} {calls : List SockCall}
      (ht : s.pc t = .serving sock (c :: calls)) (hc : c ≠ .close) :
      ServerCase s (.run t) (s.goto t (.serving sock calls))
  | ret {t : Nat} {sock : Fd} (ht : s.pc t = .serving sock []) :
      ServerCase s (.run t) (s.goto t .returned)

theorem server_cases {s s' : Server} {l : ServerLabel} (hs : s.step l = some s') :
    ServerCase s l s' := by
  cases l with
  | accept sock =>
    unfold Server.step at hs
    dsimp only at hs
    split at hs
    · rename_i hcond
      cases hs
      exact .accept hcond.1 hcond.2
    · cases hs
  | create =>
    unfold Server.step at hs
    dsimp only at hs
    split at hs
    · rename_i hmain
      cases hs
      exact .create hmain
    · cases hs
  | start t sys garbage input =>
    unfold Server.step at hs
    dsimp only at hs
    split at hs
    · rename_i ht hcalls
      cases hs
      exact .start ht hcalls
    · cases hs
  | run t =>
    unfold Server.step at hs
    dsimp only at hs
    split at hs
    · rename_i ht
      cases hs
      exact .close ht
    · rename_i hc ht
      cases hs
      exact .call ht hc
    · rename_i ht
      cases hs
      exact .ret ht
    · cases hs

-- ---------------------------------------------------------------------------
-- In order
-- ---------------------------------------------------------------------------

/-- What holds of thread `t` at a place: it has socket `t`, and closes it with its last call. -/
def Server.Good (s : Server) (t : Nat) : ThreadPc → Prop
  | .absent => s.closes t = []
  | .created => s.closes t = [] ∧ s.sockets s.clientSock = some t
  | .serving _ [] => s.serves t = some t ∧ s.closes t = [some t]
  | .serving sock calls => s.serves t = some t ∧ s.closes t = [] ∧ s.sockets sock = some t ∧
      ∃ before, calls = before ++ [.close] ∧ .close ∉ before
  | .returned => s.serves t = some t ∧ s.closes t = [some t]

structure Handed (s : Server) : Prop where
  absent : ∀ t, s.pc t = .absent ↔ s.created ≤ t
  creating : s.main = .creating → s.accepted = s.created + 1 ∧
    s.sockets s.clientSock = some s.created ∧ ∀ t, s.pc t ≠ .created
  accepting : s.main = .accepting → s.accepted = s.created
  good : ∀ t, s.Good t (s.pc t)

theorem handed_initial {s : Server} (h : ServerInitial s) : Handed s where
  absent := by
    intro t
    rw [h.pc, h.created]
    exact iff_of_true rfl (Nat.zero_le t)
  creating := fun hm => by cases h.main.symm.trans hm
  accepting := fun _ => h.accepted.trans h.created.symm
  good := by
    intro t
    rw [h.pc]
    exact h.closes t

section
variable {s s' : Server} {t : Nat}

/-- Another thread moves, and leaves the socket of this one open. -/
theorem Server.Good.keep {pc : ThreadPc} (h : s.Good t pc) (hcloses : s'.closes t = s.closes t)
    (hserves : s'.serves t = s.serves t)
    (hsockets : ∀ sock, s.sockets sock = some t → s'.sockets sock = some t)
    (hclient : pc = .created → s'.clientSock = s.clientSock) : s'.Good t pc := by
  cases pc with
  | absent => exact hcloses.trans h
  | created =>
    obtain ⟨hnone, hsock⟩ := h
    refine ⟨hcloses.trans hnone, ?_⟩
    rw [hclient rfl]
    exact hsockets _ hsock
  | serving sock calls =>
    cases calls with
    | nil => exact ⟨hserves.trans h.1, hcloses.trans h.2⟩
    | cons c calls =>
      obtain ⟨hself, hnone, hsock, hclose⟩ := h
      exact ⟨hserves.trans hself, hcloses.trans hnone, hsockets _ hsock, hclose⟩
  | returned => exact ⟨hserves.trans h.1, hcloses.trans h.2⟩

/-- `accept` finds every thread with its socket. -/
theorem Handed.accept (h : Handed s) (hmain : s.main = .accepting) {sock : Fd}
    (hfree : s.sockets sock = none) (hok : ∀ t < s.created, s.pc t ≠ .created) :
    Handed { s with
      sockets := Function.update s.sockets sock (some s.accepted)
      clientSock := sock
      main := .creating
      accepted := s.accepted + 1 } := by
  have hcount := h.accepting hmain
  have hread (t : Nat) : s.pc t ≠ .created := by
    intro ht
    refine hok t (Nat.lt_of_not_le fun hle => ?_) ht
    rw [(h.absent t).mpr hle] at ht
    cases ht
  have hself : Function.update s.sockets sock (some s.accepted) sock = some s.created := by
    rw [Function.update_self, hcount]
  refine ⟨h.absent, fun _ => ⟨congrArg (· + 1) hcount, hself, hread⟩, nofun, fun t => ?_⟩
  refine (h.good t).keep rfl rfl (fun sock' hopen => ?_) fun ht => absurd ht (hread t)
  have hne : sock' ≠ sock := by
    rintro rfl
    cases hfree.symm.trans hopen
  exact (Function.update_of_ne hne _ _).trans hopen

theorem Handed.create (h : Handed s) (hmain : s.main = .creating) :
    Handed { s.goto s.created .created with main := .accepting, created := s.created + 1 } := by
  obtain ⟨hcount, hsock, hread⟩ := h.creating hmain
  refine ⟨fun t => ?_, nofun, fun _ => hcount, fun t => ?_⟩
  · change Function.update s.pc s.created .created t = .absent ↔ s.created + 1 ≤ t
    by_cases ht : t = s.created
    · subst ht
      rw [Function.update_self]
      exact iff_of_false nofun (by omega)
    · rw [Function.update_of_ne ht, h.absent]
      omega
  · change Server.Good _ t (Function.update s.pc s.created .created t)
    by_cases ht : t = s.created
    · subst ht
      have hnew := h.good s.created
      rw [(h.absent _).mpr (Nat.le_refl _)] at hnew
      rw [Function.update_self]
      exact ⟨hnew, hsock⟩
    · rw [Function.update_of_ne ht]
      exact (h.good t).keep rfl rfl (fun _ hopen => hopen) fun _ => rfl

/-- A thread that exists goes on, and `main` stays where it is. -/
theorem Handed.go (h : Handed s) (pc : ThreadPc) (ht : s.pc t ≠ .absent) (hpc' : pc ≠ .absent)
    (hcreated : pc ≠ .created) (hpc : s'.pc = Function.update s.pc t pc)
    (hmain : s'.main = s.main) (haccepted : s'.accepted = s.accepted)
    (hcount : s'.created = s.created) (hclient : s'.clientSock = s.clientSock)
    (hsockets : ∀ sock u, u ≠ t → s.sockets sock = some u → s'.sockets sock = some u)
    (hcloses : ∀ u, u ≠ t → s'.closes u = s.closes u)
    (hserves : ∀ u, u ≠ t → s'.serves u = s.serves u) (hgood : s'.Good t pc) : Handed s' := by
  have hself : s'.pc t = pc := by
    rw [hpc, Function.update_self]
  have hother (u : Nat) (hu : u ≠ t) : s'.pc u = s.pc u := by
    rw [hpc, Function.update_of_ne hu]
  refine ⟨fun u => ?_, fun hm => ?_, ?_, fun u => ?_⟩
  · rw [hcount]
    by_cases hu : u = t
    · subst hu
      rw [hself, ← h.absent]
      exact iff_of_false hpc' ht
    · rw [hother u hu, h.absent]
  · obtain ⟨hnext, hsock, hread⟩ := h.creating (hmain ▸ hm)
    have hnew : s.created ≠ t := fun heq => ht ((h.absent t).mpr (Nat.le_of_eq heq))
    refine ⟨by rw [haccepted, hcount, hnext], ?_, fun u => ?_⟩
    · rw [hclient, hcount]
      exact hsockets _ _ hnew hsock
    · by_cases hu : u = t
      · subst hu
        rw [hself]
        exact hcreated
      · rw [hother u hu]
        exact hread u
  · rw [hmain, haccepted, hcount]
    exact h.accepting
  · by_cases hu : u = t
    · subst hu
      rw [hself]
      exact hgood
    · rw [hother u hu]
      exact (h.good u).keep (hcloses u hu) (hserves u hu) (fun sock => hsockets sock u hu)
        fun _ => hclient

theorem Handed.start (h : Handed s) (ht : s.pc t = .created) {sys : System} {garbage : Mem}
    {input : List UInt8} {calls : List SockCall}
    (hcalls : socketCalls sys garbage input = .ok calls) (hok : Supported input) :
    Handed { s.goto t (.serving s.clientSock calls) with
      serves := Function.update s.serves t (s.sockets s.clientSock) } := by
  have hgood := h.good t
  rw [ht] at hgood
  obtain ⟨hnone, hsock⟩ := hgood
  have hclose := socketCalls_close hcalls
  rw [if_pos hok] at hclose
  refine h.go (.serving s.clientSock calls) (by rw [ht]; nofun) nofun nofun rfl rfl rfl rfl rfl
    (fun _ _ _ hopen => hopen) (fun _ _ => rfl) (fun u hu => Function.update_of_ne hu _ _) ?_
  obtain ⟨before, rfl, hbefore⟩ := hclose
  have hself : Function.update s.serves t (s.sockets s.clientSock) t = some t := by
    rw [Function.update_self, hsock]
  cases before with
  | nil => exact ⟨hself, hnone, hsock, [], rfl, hbefore⟩
  | cons c before => exact ⟨hself, hnone, hsock, c :: before, rfl, hbefore⟩

/-- The last call of a thread is `close`. -/
theorem Handed.close (h : Handed s) {sock : Fd} {calls : List SockCall}
    (ht : s.pc t = .serving sock (.close :: calls)) :
    Handed ((s.close t sock).goto t (.serving sock calls)) := by
  have hgood := h.good t
  rw [ht] at hgood
  obtain ⟨hself, hnone, hsock, before, heq, hbefore⟩ := hgood
  have hlast : calls = [] := by
    cases before with
    | nil => exact (List.cons.inj heq).2
    | cons c before => exact absurd ((List.cons.inj heq).1 ▸ List.mem_cons_self ..) hbefore
  subst hlast
  refine h.go (.serving sock []) (by rw [ht]; nofun) nofun nofun rfl rfl rfl rfl rfl
    (fun sock' u hu hopen => ?_) (fun u hu => Function.update_of_ne hu _ _) (fun _ _ => rfl)
    ⟨hself, ?_⟩
  · have hne : sock' ≠ sock := by
      rintro rfl
      exact hu (Option.some.inj (hopen.symm.trans hsock))
    exact (Function.update_of_ne hne _ _).trans hopen
  · change Function.update s.closes t (s.closes t ++ [s.sockets sock]) t = [some t]
    rw [Function.update_self, hnone, hsock]
    rfl

theorem Handed.call (h : Handed s) {sock : Fd} {c : SockCall} {calls : List SockCall}
    (ht : s.pc t = .serving sock (c :: calls)) (hc : c ≠ .close) :
    Handed (s.goto t (.serving sock calls)) := by
  have hgood := h.good t
  rw [ht] at hgood
  obtain ⟨hself, hnone, hsock, before, heq, hbefore⟩ := hgood
  refine h.go (.serving sock calls) (by rw [ht]; nofun) nofun nofun rfl rfl rfl rfl rfl
    (fun _ _ _ hopen => hopen) (fun _ _ => rfl) (fun _ _ => rfl) ?_
  cases before with
  | nil => exact absurd (List.cons.inj heq).1 hc
  | cons b before =>
    obtain ⟨-, rfl⟩ := List.cons.inj heq
    have hrest : SockCall.close ∉ before := fun hmem => hbefore (List.mem_cons_of_mem b hmem)
    cases before with
    | nil => exact ⟨hself, hnone, hsock, [], rfl, hrest⟩
    | cons b' before => exact ⟨hself, hnone, hsock, b' :: before, rfl, hrest⟩

theorem Handed.ret (h : Handed s) {sock : Fd} (ht : s.pc t = .serving sock []) :
    Handed (s.goto t .returned) := by
  have hgood := h.good t
  rw [ht] at hgood
  exact h.go .returned (by rw [ht]; nofun) nofun nofun rfl rfl rfl rfl rfl
    (fun _ _ _ hopen => hopen) (fun _ _ => rfl) (fun _ _ => rfl) hgood

/-- **Step lemma.** -/
theorem handed_step {l : ServerLabel} (h : Handed s) (hok : Orderly s l)
    (hs : s.step l = some s') : Handed s' := by
  cases server_cases hs with
  | accept hmain hfree => exact h.accept hmain hfree hok
  | create hmain => exact h.create hmain
  | start ht hcalls => exact h.start ht hcalls hok
  | close ht => exact h.close ht
  | call ht hc => exact h.call ht hc
  | ret ht => exact h.ret ht

theorem Handed.started (h : Handed s) (ht : s.Started t) :
    s.serves t = some t ∧ t < s.created := by
  refine ⟨?_, Nat.lt_of_not_le fun hle => ht.1 ((h.absent t).mpr hle)⟩
  have hgood := h.good t
  revert hgood
  cases hpc : s.pc t with
  | absent => exact absurd hpc ht.1
  | created => exact absurd hpc ht.2
  | serving sock calls =>
    cases calls with
    | nil => exact fun hgood => hgood.1
    | cons c calls => exact fun hgood => hgood.1
  | returned => exact fun hgood => hgood.1

theorem Handed.created_le (h : Handed s) : s.created ≤ s.accepted := by
  cases hmain : s.main with
  | accepting => exact Nat.le_of_eq (h.accepting hmain).symm
  | creating =>
    have := (h.creating hmain).1
    omega

theorem Handed.handedOut (h : Handed s) : HandedOut s where
  mapsTo := by
    intro t ht
    obtain ⟨hserves, hlt⟩ := h.started ht
    exact ⟨t, Nat.lt_of_lt_of_le hlt h.created_le, hserves.symm⟩
  injOn := by
    intro t ht u hu heq
    rw [(h.started ht).1, (h.started hu).1] at heq
    exact Option.some.inj heq
  bijOn := by
    rintro ⟨hmain, hread⟩
    have hserves (t : Nat) (ht : t < s.created) : s.serves t = some t := by
      refine (h.started ⟨fun ha => ?_, hread t ht⟩).1
      exact Nat.not_le_of_lt ht ((h.absent t).mp ha)
    rw [h.accepting hmain]
    refine ⟨fun t ht => ⟨t, ht, (hserves t ht).symm⟩, fun t ht u hu heq => ?_, ?_⟩
    · rw [hserves t ht, hserves u hu] at heq
      exact Option.some.inj heq
    · rintro _ ⟨t, ht, rfl⟩
      exact ⟨t, ht, hserves t ht⟩
  closedOnce := by
    intro t ht
    have hgood := h.good t
    rw [ht] at hgood
    exact hgood.2.trans (congrArg (fun n => [n]) hgood.1.symm)

-- ---------------------------------------------------------------------------
-- Out of order
-- ---------------------------------------------------------------------------

/-- No thread has socket `n`, and none is going to get it. -/
structure Stranded (s : Server) (n : Nat) : Prop where
  accepted : n < s.accepted
  client : s.sockets s.clientSock ≠ some n
  serving : ∀ t sock c calls, s.pc t = .serving sock (c :: calls) → s.sockets sock ≠ some n
  serves : ∀ t, s.Started t → s.serves t ≠ some n

/-- Thread `t` does not close its socket. -/
structure Unclosed (s : Server) (t : Nat) : Prop where
  created : t < s.created
  closes : s.closes t = []
  pc : s.pc t = .returned ∨ ∃ sock calls, s.pc t = .serving sock calls ∧ .close ∉ calls

/-- `main` has lost the descriptor that the thread should have read. -/
theorem Handed.stranded (h : Handed s) (hmain : s.main = .accepting) {sock : Fd}
    (ht : s.pc t = .created) :
    Stranded { s with
      sockets := Function.update s.sockets sock (some s.accepted)
      clientSock := sock
      main := .creating
      accepted := s.accepted + 1 } t := by
  have hlt : t < s.accepted := by
    rw [h.accepting hmain]
    refine Nat.lt_of_not_le fun hle => ?_
    rw [(h.absent t).mpr hle] at ht
    cases ht
  have hnew : some s.accepted ≠ some t := fun heq => Nat.ne_of_gt hlt (Option.some.inj heq)
  refine ⟨Nat.lt_succ_of_lt hlt, ?_, ?_, ?_⟩
  · change Function.update s.sockets sock (some s.accepted) sock ≠ some t
    rw [Function.update_self]
    exact hnew
  · intro u sock' c calls hu
    change Function.update s.sockets sock (some s.accepted) sock' ≠ some t
    by_cases hsock : sock' = sock
    · rw [hsock, Function.update_self]
      exact hnew
    · have hgood := h.good u
      change s.pc u = _ at hu
      rw [hu] at hgood
      rw [Function.update_of_ne hsock, hgood.2.2.1]
      intro heq
      rw [Option.some.inj heq, ht] at hu
      cases hu
  · intro u hu
    rw [(h.started hu).1]
    intro heq
    exact hu.2 (Option.some.inj heq ▸ ht)

/-- When a thread moves, the others have started or not as before. -/
theorem Server.Started.of_ne {pc : ThreadPc} {u : Nat} (hne : u ≠ t)
    (hpc : s'.pc = Function.update s.pc t pc) (hu : s'.Started u) : s.Started u := by
  unfold Server.Started at hu ⊢
  rwa [hpc, Function.update_of_ne hne] at hu

/-- A thread that has started goes on, and others have started already. -/
theorem Server.Started.of_goto {pc : ThreadPc} {u : Nat} (ht : s.Started t)
    (hu : (s.goto t pc).Started u) : s.Started u := by
  by_cases heq : u = t
  · exact heq ▸ ht
  · exact .of_ne heq rfl hu

/-- A thread moves; nobody gets a socket. -/
theorem Stranded.go {n : Nat} (h : Stranded s n) (pc : ThreadPc)
    (hpc : s'.pc = Function.update s.pc t pc) (haccepted : s'.accepted = s.accepted)
    (hclient : s'.clientSock = s.clientSock)
    (hsockets : ∀ sock, s'.sockets sock = some n → s.sockets sock = some n)
    (hserving : ∀ sock c calls, pc = .serving sock (c :: calls) → s.sockets sock ≠ some n)
    (hserves : ∀ u, s'.Started u → s'.serves u ≠ some n) : Stranded s' n := by
  refine ⟨haccepted ▸ h.accepted, fun heq => ?_, fun u sock c calls hu heq => ?_, hserves⟩
  · rw [hclient] at heq
    exact h.client (hsockets _ heq)
  · rw [hpc] at hu
    rcases update_cases hu with ⟨-, hnew⟩ | ⟨-, hold⟩
    · exact hserving sock c calls hnew (hsockets _ heq)
    · exact h.serving u sock c calls hold (hsockets _ heq)

theorem stranded_step {l : ServerLabel} {n : Nat} (h : Stranded s n) (hs : s.step l = some s') :
    Stranded s' n := by
  have hrun {u : Nat} {sock : Fd} {calls : List SockCall} (hu : s.pc u = .serving sock calls) :
      s.Started u := by
    rw [Server.Started, hu]
    exact ⟨nofun, nofun⟩
  cases server_cases hs with
  | @accept sock hmain hfree =>
    have hnew : some s.accepted ≠ some n :=
      fun heq => Nat.ne_of_gt h.accepted (Option.some.inj heq)
    have hsockets (sock' : Fd)
        (heq : Function.update s.sockets sock (some s.accepted) sock' = some n) :
        s.sockets sock' = some n := by
      rcases update_cases heq with ⟨-, hnew'⟩ | ⟨-, hold⟩
      · exact absurd hnew' hnew
      · exact hold
    refine ⟨Nat.lt_succ_of_lt h.accepted, ?_, ?_, h.serves⟩
    · intro heq
      exact hnew ((Function.update_self sock (some s.accepted) s.sockets).symm.trans heq)
    · exact fun u sock' c calls hu heq => h.serving u sock' c calls hu (hsockets sock' heq)
  | create hmain =>
    refine h.go .created rfl rfl rfl (fun _ heq => heq) nofun fun u hu => h.serves u ?_
    by_cases heq : u = s.created
    · subst heq
      exact absurd (Function.update_self ..) hu.2
    · exact .of_ne heq rfl hu
  | @start u sys garbage input calls hu hcalls =>
    refine h.go (.serving s.clientSock calls) rfl rfl rfl (fun _ heq => heq) ?_ ?_
    · intro sock c calls' heq
      rw [← (ThreadPc.serving.inj heq).1]
      exact h.client
    · intro w hw heq
      rcases update_cases heq with ⟨-, hnew⟩ | ⟨hne, hold⟩
      · exact h.client hnew
      · exact h.serves w (.of_ne hne rfl hw) hold
  | @close u sock calls hu =>
    refine h.go (.serving sock calls) rfl rfl rfl ?_ ?_ ?_
    · intro sock' heq
      rcases update_cases heq with ⟨-, hnew⟩ | ⟨-, hold⟩
      · cases hnew
      · exact hold
    · intro sock' c calls' heq
      rw [← (ThreadPc.serving.inj heq).1]
      exact h.serving u sock _ _ hu
    · exact fun w hw => h.serves w (.of_goto (hrun hu) hw)
  | @call u sock c calls hu hc =>
    refine h.go (.serving sock calls) rfl rfl rfl (fun _ heq => heq) ?_ ?_
    · intro sock' c' calls' heq
      rw [← (ThreadPc.serving.inj heq).1]
      exact h.serving u sock _ _ hu
    · exact fun w hw => h.serves w (.of_goto (hrun hu) hw)
  | @ret u sock hu =>
    exact h.go .returned rfl rfl rfl (fun _ heq => heq) nofun
      fun w hw => h.serves w (.of_goto (hrun hu) hw)

theorem unclosed_step {l : ServerLabel} (h : Unclosed s t) (hs : s.step l = some s') :
    Unclosed s' t := by
  obtain ⟨hlt, hcloses, hpc⟩ := h
  -- another thread moves
  have hother {u : Nat} {pc : ThreadPc} (hne : t ≠ u) :
      Function.update s.pc u pc t = .returned ∨
        ∃ sock calls, Function.update s.pc u pc t = .serving sock calls ∧ .close ∉ calls := by
    rwa [Function.update_of_ne hne]
  -- this thread moves
  have hself {sock : Fd} {calls : List SockCall} (ht : s.pc t = .serving sock calls) :
      .close ∉ calls := by
    rcases hpc with hret | ⟨sock', calls', hserving, hnone⟩
    · cases hret.symm.trans ht
    · obtain ⟨-, rfl⟩ := ThreadPc.serving.inj (hserving.symm.trans ht)
      exact hnone
  cases server_cases hs with
  | accept hmain hfree => exact ⟨hlt, hcloses, hpc⟩
  | create hmain => exact ⟨Nat.lt_succ_of_lt hlt, hcloses, hother (Nat.ne_of_lt hlt)⟩
  | @start u sys garbage input calls hu hcalls =>
    refine ⟨hlt, hcloses, hother ?_⟩
    rintro rfl
    rcases hpc with hret | ⟨sock, calls', hserving, -⟩
    · cases hret.symm.trans hu
    · cases hserving.symm.trans hu
  | @close u sock calls hu =>
    have hne : t ≠ u := by
      rintro rfl
      exact hself hu (List.mem_cons_self ..)
    exact ⟨hlt, (Function.update_of_ne hne _ _).trans hcloses, hother hne⟩
  | @call u sock c calls hu hc =>
    refine ⟨hlt, hcloses, ?_⟩
    by_cases heq : t = u
    · subst heq
      exact .inr ⟨sock, calls, Function.update_self ..,
        fun hmem => hself hu (List.mem_cons_of_mem c hmem)⟩
    · exact hother heq
  | @ret u sock hu =>
    refine ⟨hlt, hcloses, ?_⟩
    by_cases heq : t = u
    · subst heq
      exact .inl (Function.update_self ..)
    · exact hother heq

/-- A step out of order loses a socket, or leaves one open. -/
theorem Handed.disorder {l : ServerLabel} (h : Handed s) (hok : ¬ Orderly s l)
    (hs : s.step l = some s') : (∃ n, Stranded s' n) ∨ ∃ t, Unclosed s' t := by
  cases server_cases hs with
  | accept hmain hfree =>
    simp only [Orderly, not_forall, not_not] at hok
    obtain ⟨t, -, ht⟩ := hok
    exact .inl ⟨t, h.stranded hmain ht⟩
  | @start t sys garbage input calls ht hcalls =>
    have hclose := socketCalls_close hcalls
    rw [if_neg (show ¬ Supported input from hok)] at hclose
    have hgood := h.good t
    rw [ht] at hgood
    have hlt : t < s.created := by
      refine Nat.lt_of_not_le fun hle => ?_
      cases ((h.absent t).mpr hle).symm.trans ht
    exact .inr ⟨t, hlt, hgood.1, .inr ⟨s.clientSock, calls, Function.update_self .., hclose⟩⟩
  | create | close | call | ret => exact absurd trivial hok

theorem started_of_returned (h : s.pc t = .returned) : s.Started t := by
  rw [Server.Started, h]
  exact ⟨nofun, nofun⟩

theorem Stranded.not_handedOut {n : Nat} (h : Stranded s n) (hall : s.AllReturned) :
    ¬ HandedOut s := by
  intro hhanded
  have hstarted : s.AllStarted := ⟨hall.1, fun t ht => by rw [hall.2 t ht]; nofun⟩
  obtain ⟨t, ht, hserves⟩ := (hhanded.bijOn hstarted).surjOn ⟨n, h.accepted, rfl⟩
  exact h.serves t (started_of_returned (hall.2 t ht)) hserves

theorem Unclosed.not_handedOut (h : Unclosed s t) (hall : s.AllReturned) : ¬ HandedOut s := by
  intro hhanded
  have hclosed := hhanded.closedOnce t (hall.2 t h.created)
  rw [h.closes] at hclosed
  cases hclosed

-- ---------------------------------------------------------------------------
-- Runs
-- ---------------------------------------------------------------------------

/-- **Each socket has a thread of its own, which closes it once**, while no socket is accepted
before every thread has read `*client` and every request is a `GET` or a `POST`. After the first
step that is not so, that is never so again when all threads have returned. -/
theorem sockets_handed_out (h : Reachable ServerInitial Server.step Orderly s) :
    HandedOut s ∧
    ∀ l s', s.step l = some s' → ¬ Orderly s l →
      ∀ u, Reachable (· = s') Server.step (fun _ _ => True) u → u.AllReturned → ¬ HandedOut u := by
  have hhanded : Handed s :=
    h.invariant (fun _ h => handed_initial h) fun _ _ _ ht hok hs => handed_step ht hok hs
  refine ⟨hhanded.handedOut, fun l s' hs hbad u hu hall => ?_⟩
  rcases hhanded.disorder hbad hs with ⟨n, hn⟩ | ⟨t, ht⟩
  · have hn' : Stranded u n :=
      hu.invariant (fun _ h => h ▸ hn) fun _ _ _ h _ hs => stranded_step h hs
    exact hn'.not_handedOut hall
  · have ht' : Unclosed u t :=
      hu.invariant (fun _ h => h ▸ ht) fun _ _ _ h _ hs => unclosed_step h hs
    exact ht'.not_handedOut hall

end

/-- A server that has accepted nothing. -/
def noSockets : Server where
  sockets := fun _ => none
  clientSock := 0
  main := .accepting
  accepted := 0
  created := 0
  pc := fun _ => .absent
  serves := fun _ => none
  closes := fun _ => []

theorem noSockets_initial : ServerInitial noSockets :=
  ⟨fun _ => rfl, rfl, rfl, rfl, fun _ => rfl, fun _ => rfl⟩

def getRequest : List UInt8 := bytes "GET / HTTP/1.1\r\n\r\n"

/-- A thread from its first step to its `return`. -/
def servesGet (t : Nat) : List ServerLabel :=
  .start t noFiles (fun _ => 0) getRequest :: List.replicate 13 (.run t)

/-- Two sockets, one after the other, behind one descriptor. -/
theorem sockets_handed_out_two : ∃ s : Server, s.accepted = 2 ∧ s.AllReturned ∧ HandedOut s := by
  have hrun : (runSteps (guarded (fun s l => decide (Orderly s l)) Server.step) noSockets
      (.accept 4 :: .create :: (servesGet 0 ++ .accept 4 :: .create :: servesGet 1))).any
      (fun s => decide (s.accepted = 2 ∧ s.created = 2 ∧ s.main = .accepting ∧
        s.pc 0 = .returned ∧ s.pc 1 = .returned)) = true := by
    decide +kernel
  obtain ⟨s, hs, hval⟩ := (Option.any_eq_true _ _).mp hrun
  obtain ⟨haccepted, hcreated, hmain, hzero, hone⟩ := of_decide_eq_true hval
  have hreach : Reachable ServerInitial Server.step Orderly s :=
    Reachable.of_guarded (fun _ _ h => of_decide_eq_true h) (.init noSockets_initial) hs
  refine ⟨s, haccepted, ⟨hmain, fun t ht => ?_⟩, (sockets_handed_out hreach).1⟩
  rw [hcreated] at ht
  obtain rfl | rfl : t = 0 ∨ t = 1 := by omega
  · exact hzero
  · exact hone

/-- The second socket is accepted before the first thread looks. -/
theorem sockets_mixed_up : ¬ ∀ s : Server,
    Reachable ServerInitial Server.step (fun _ _ => True) s → HandedOut s := by
  intro hall
  have hrun : (runSteps Server.step noSockets
      (.accept 4 :: .create :: .accept 5 :: .create ::
        .start 0 noFiles (fun _ => 0) getRequest ::
        (servesGet 1 ++ List.replicate 13 (.run 0)))).any
      (fun s => decide (s.pc 0 = .returned ∧ s.pc 1 = .returned ∧ s.serves 0 = s.serves 1)) =
        true := by
    decide +kernel
  obtain ⟨s, hs, hval⟩ := (Option.any_eq_true _ _).mp hrun
  obtain ⟨hzero, hone, hserves⟩ := of_decide_eq_true hval
  have hreach : Reachable ServerInitial Server.step (fun _ _ => True) s :=
    Reachable.of_run (fun _ _ _ => trivial) (.init noSockets_initial) hs
  have heq : 0 = 1 := (hall s hreach).injOn (started_of_returned hzero) (started_of_returned hone)
    hserves
  exact absurd heq (by decide)

end TinyHTTP.Version01
