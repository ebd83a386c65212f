import TinyHTTP.Version02.EventLoop
import TinyHTTP.Version02.RequestFields

/-!
# TinyHTTP — version_02: whose connection it is

A connection belongs to the thread in whose set `main` has put it. Each thread looks at
the events of one `epoll_wait` one after another; no two of them are of one socket, and
a socket that is closed on the way is in none of those that are left.

* `Serves.next` — a step of the server is a step of one connection, or of none.
* `connections_owned` — every call is made on the connection that the record is of.
* `connection_dialogue` — each connection is served as if it were the only one.
-/

namespace TinyHTTP.Version02

open TinyHTTP.Lib

/-- The connection that a thread is at. -/
def WorkerPc.current : WorkerPc → Option Nat
  | .next _ => none
  | .modifying ptr _ _ | .closing ptr _ => some ptr

/-- The events that a thread has still to look at. -/
def WorkerPc.evlist : WorkerPc → List (Nat × Events)
  | .next evlist | .modifying _ _ evlist | .closing _ evlist => evlist

/-- The connections that a thread has in its hands. -/
def WorkerPc.holds (pc : WorkerPc) : List Nat := pc.current.toList ++ pc.evlist.map Prod.fst

/-- The registration is the one that the connection needs. -/
def Life.Awaits (life : Life) (request : Option HttpRequest) : Interest → Prop
  | .epollIn => life = .reading
  | .epollOut => ∃ r, life = .writing r ∧ request = some r

/-- A thread with its epoll set: it holds registered connections, no one twice, and what it is about
to do to them is what they need. -/
structure OnThread (set : Fd → Option Registration) (record : Nat → Record) (D : Nat → Dialogue)
    (pc : WorkerPc) : Prop where
  held : ∀ ptr ∈ pc.holds, ∃ r, set (record ptr).fd = some r ∧ r.ptr = ptr
  fits : ∀ ptr e, (ptr, e) ∈ pc.evlist → ∀ r, set (record ptr).fd = some r →
    e.fits r.interest = true
  nodup : pc.holds.Nodup
  awaits : ∀ fd r, set fd = some r → pc.current ≠ some r.ptr →
    (D r.ptr).life.Awaits (record r.ptr).request r.interest
  modifying : ∀ ptr interest rest, pc = .modifying ptr interest rest →
    (D ptr).life.Awaits (record ptr).request interest
  closing : ∀ ptr rest, pc = .closing ptr rest → (D ptr).life = .closed

/-- `main` is about to register a connection. -/
structure Adding (s : Loop) (D : Nat → Dialogue) (i k : Nat) : Prop where
  isOpen : s.sockets (s.record k).fd = some k
  home : s.home k = i
  life : (D k).life = .reading
  unregistered : ∀ t fd r, s.sets t fd = some r → r.ptr ≠ k

/-- The connections that have been closed. -/
structure Loop.Closed (s : Loop) (l : List Nat) : Prop where
  closes : s.closes = l.map some
  nodup : l.Nodup
  mem : ∀ k, k ∈ l ↔ k < s.accepted ∧ s.sockets (s.record k).fd ≠ some k

/-- The server serves connection `k` as `D k`. -/
structure Serves (conf : ConfHttp) (s : Loop) (D : Nat → Dialogue) : Prop where
  config : s.conf = conf
  socket : ∀ fd k, s.sockets fd = some k → k < s.accepted ∧ (s.record k).fd = fd
  registered : ∀ t fd r, s.sets t fd = some r → s.sockets fd = some r.ptr ∧ s.home r.ptr = t
  adding : ∀ i k, s.main = .adding i k → Adding s D i k
  thread : ∀ t, OnThread (s.sets t) s.record D (s.worker t)
  dialogue : ∀ k, (D k).Runs conf ∧ (D k).taken = s.taken k ∧ (D k).sent = s.sent k
  fresh : ∀ k, s.accepted ≤ k → D k = .start
  closed : ∃ l, s.Closed l ∧ ∀ k ∈ l, (D k).life = .closed

section
variable {conf : ConfHttp} {s s' : Loop} {D D' : Nat → Dialogue} {t ptr : Nat} {e : Events}
  {rest : List (Nat × Events)} {set : Fd → Option Registration} {record record' : Nat → Record}
  {pc : WorkerPc}

-- ---------------------------------------------------------------------------
-- One thread
-- ---------------------------------------------------------------------------

theorem OnThread.idle (hset : ∀ fd, set fd = none) : OnThread set record D (.next []) where
  held := fun _ hptr => absurd hptr List.not_mem_nil
  fits := fun _ _ he => absurd he List.not_mem_nil
  nodup := List.nodup_nil
  awaits := by
    intro fd r hr
    rw [hset] at hr
    cases hr
  modifying := nofun
  closing := nofun

theorem mem_holds (he : (ptr, e) ∈ pc.evlist) : ptr ∈ pc.holds :=
  List.mem_append_right _ (List.mem_map_of_mem he)

/-- What becomes of connections that are not in the set is nothing to the thread. -/
theorem OnThread.congr (h : OnThread set record D pc)
    (hsame : ∀ fd r, set fd = some r → record' r.ptr = record r.ptr ∧ D' r.ptr = D r.ptr) :
    OnThread set record' D' pc := by
  have hptr {ptr : Nat} (hptr : ptr ∈ pc.holds) : record' ptr = record ptr ∧ D' ptr = D ptr := by
    obtain ⟨r, hr, rfl⟩ := h.held ptr hptr
    exact hsame _ r hr
  refine ⟨fun ptr hmem => ?_, fun ptr e he => ?_, h.nodup, fun fd r hr hne => ?_,
    fun ptr interest rest hpc => ?_, fun ptr rest hpc => ?_⟩
  · rw [(hptr hmem).1]
    exact h.held ptr hmem
  · rw [(hptr (mem_holds he)).1]
    exact h.fits ptr e he
  · rw [(hsame fd r hr).1, (hsame fd r hr).2]
    exact h.awaits fd r hr hne
  · have hmem : ptr ∈ pc.holds := by
      rw [hpc]
      exact List.mem_cons_self ..
    rw [(hptr hmem).1, (hptr hmem).2]
    exact h.modifying ptr interest rest hpc
  · have hmem : ptr ∈ pc.holds := by
      rw [hpc]
      exact List.mem_cons_self ..
    rw [(hptr hmem).2]
    exact h.closing ptr rest hpc

/-- The thread turns to other events. -/
theorem OnThread.next {pc : WorkerPc} {evlist : List (Nat × Events)} (h : OnThread set record D pc)
    (hcurrent : pc.current = none)
    (hheld : ∀ ptr e, (ptr, e) ∈ evlist → ∃ r, set (record ptr).fd = some r ∧ r.ptr = ptr ∧
      e.fits r.interest = true)
    (hnodup : (evlist.map Prod.fst).Nodup) : OnThread set record D (.next evlist) where
  held := by
    intro ptr hptr
    obtain ⟨⟨ptr', e⟩, he, rfl⟩ := List.mem_map.mp hptr
    obtain ⟨r, hr, heq, -⟩ := hheld ptr' e he
    exact ⟨r, hr, heq⟩
  fits := by
    intro ptr e he r hr
    obtain ⟨r', hr', -, hfits⟩ := hheld ptr e he
    cases hr'.symm.trans hr
    exact hfits
  nodup := hnodup
  awaits := by
    intro fd r hr _
    refine h.awaits fd r hr ?_
    rw [hcurrent]
    exact nofun
  modifying := nofun
  closing := nofun

/-- The first event of a thread. -/
theorem OnThread.head (h : OnThread set record D (.next ((ptr, e) :: rest))) :
    ∃ r, set (record ptr).fd = some r ∧ r.ptr = ptr ∧ e.fits r.interest = true ∧
      (D ptr).life.Awaits (record ptr).request r.interest := by
  obtain ⟨r, hr, rfl⟩ := h.held ptr (List.mem_cons_self ..)
  exact ⟨r, hr, rfl, h.fits _ e (List.mem_cons_self ..) r hr, h.awaits _ r hr nofun⟩

/-- The first event has been handled, but for what is to be done to the registration. -/
theorem OnThread.handle (h : OnThread set record D (.next ((ptr, e) :: rest)))
    (hcurrent : pc.current = some ptr) (hrest : pc.evlist = rest)
    (hrecord : ∀ k, k ≠ ptr → record' k = record k) (hfd : (record' ptr).fd = (record ptr).fd)
    (hD : ∀ k, k ≠ ptr → D' k = D k)
    (hmodifying : ∀ ptr interest rest, pc = .modifying ptr interest rest →
      (D' ptr).life.Awaits (record' ptr).request interest)
    (hclosing : ∀ ptr rest, pc = .closing ptr rest → (D' ptr).life = .closed) :
    OnThread set record' D' pc := by
  have hsame (k : Nat) : (record' k).fd = (record k).fd := by
    by_cases hk : k = ptr
    · rw [hk, hfd]
    · rw [hrecord k hk]
  have hholds : pc.holds = (WorkerPc.next ((ptr, e) :: rest)).holds := by
    rw [WorkerPc.holds, hcurrent, hrest]
    rfl
  refine ⟨fun k hk => ?_, fun k e' he => ?_, ?_, fun fd r hr hne => ?_, hmodifying, hclosing⟩
  · rw [hsame]
    rw [hholds] at hk
    exact h.held k hk
  · rw [hsame]
    rw [hrest] at he
    exact h.fits k e' (List.mem_cons_of_mem _ he)
  · rw [hholds]
    exact h.nodup
  · have hptr : r.ptr ≠ ptr := by
      rintro rfl
      exact hne hcurrent
    rw [hrecord _ hptr, hD _ hptr]
    exact h.awaits fd r hr nofun

/-- `epoll_mod` -/
theorem OnThread.mod {interest : Interest}
    (h : OnThread set record D (.modifying ptr interest rest))
    (hfds : ∀ fd r, set fd = some r → (record r.ptr).fd = fd) :
    OnThread (Function.update set (record ptr).fd (some ⟨ptr, interest⟩)) record D
      (.next rest) := by
  have hnodup : ptr ∉ rest.map Prod.fst ∧ (rest.map Prod.fst).Nodup := List.nodup_cons.mp h.nodup
  -- the other connections are behind other descriptors
  have hother {k : Nat} (hk : k ∈ rest.map Prod.fst) :
      ∃ r, set (record k).fd = some r ∧ r.ptr = k ∧ (record k).fd ≠ (record ptr).fd := by
    obtain ⟨r, hr, rfl⟩ := h.held k (List.mem_cons_of_mem _ hk)
    obtain ⟨r', hr', hptr⟩ := h.held ptr (List.mem_cons_self ..)
    refine ⟨r, hr, rfl, fun hfd => hnodup.1 ?_⟩
    rw [hfd, hr'] at hr
    obtain rfl := Option.some.inj hr
    rwa [← hptr]
  refine ⟨fun k hk => ?_, fun k e he r hr => ?_, hnodup.2, fun fd r hr _ => ?_, nofun, nofun⟩
  · obtain ⟨r, hr, hptr, hne⟩ := hother hk
    exact ⟨r, by rwa [Function.update_of_ne hne], hptr⟩
  · obtain ⟨-, -, -, hne⟩ := hother (List.mem_map_of_mem he)
    rw [Function.update_of_ne hne] at hr
    exact h.fits k e he r hr
  · rcases update_cases hr with ⟨-, heq⟩ | ⟨hne, hold⟩
    · obtain rfl := Option.some.inj heq
      exact h.modifying ptr interest rest rfl
    · refine h.awaits fd r hold fun heq => hne ?_
      rw [← hfds fd r hold, Option.some.inj heq]

/-- `close` -/
theorem OnThread.close (h : OnThread set record D (.closing ptr rest))
    (hfds : ∀ fd r, set fd = some r → (record r.ptr).fd = fd) :
    OnThread (Function.update set (record ptr).fd none) record D (.next rest) := by
  have hnodup : ptr ∉ rest.map Prod.fst ∧ (rest.map Prod.fst).Nodup := List.nodup_cons.mp h.nodup
  have hother {k : Nat} (hk : k ∈ rest.map Prod.fst) :
      ∃ r, set (record k).fd = some r ∧ r.ptr = k ∧ (record k).fd ≠ (record ptr).fd := by
    obtain ⟨r, hr, rfl⟩ := h.held k (List.mem_cons_of_mem _ hk)
    obtain ⟨r', hr', hptr⟩ := h.held ptr (List.mem_cons_self ..)
    refine ⟨r, hr, rfl, fun hfd => hnodup.1 ?_⟩
    rw [hfd, hr'] at hr
    obtain rfl := Option.some.inj hr
    rwa [← hptr]
  refine ⟨fun k hk => ?_, fun k e he r hr => ?_, hnodup.2, fun fd r hr _ => ?_, nofun, nofun⟩
  · obtain ⟨r, hr, hptr, hne⟩ := hother hk
    exact ⟨r, by rwa [Function.update_of_ne hne], hptr⟩
  · obtain ⟨-, -, -, hne⟩ := hother (List.mem_map_of_mem he)
    rw [Function.update_of_ne hne] at hr
    exact h.fits k e he r hr
  · rcases update_cases hr with ⟨-, heq⟩ | ⟨hne, hold⟩
    · cases heq
    · refine h.awaits fd r hold fun heq => hne ?_
      rw [← hfds fd r hold, Option.some.inj heq]

/-- `main` puts a connection into the set. -/
theorem OnThread.add {k : Nat} (h : OnThread set record D pc) (hnone : set (record k).fd = none)
    (hlife : (D k).life = .reading) :
    OnThread (Function.update set (record k).fd (some ⟨k, .epollIn⟩)) record D pc := by
  have hold {fd : Fd} {r : Registration} (hr : set fd = some r) :
      Function.update set (record k).fd (some ⟨k, .epollIn⟩) fd = some r := by
    rw [Function.update_of_ne, hr]
    rintro rfl
    cases hnone.symm.trans hr
  refine ⟨fun ptr hptr => ?_, fun ptr e he r hr => ?_, h.nodup, fun fd r hr hne => ?_,
    h.modifying, h.closing⟩
  · obtain ⟨r, hr, heq⟩ := h.held ptr hptr
    exact ⟨r, hold hr, heq⟩
  · obtain ⟨r', hr', -⟩ := h.held ptr (mem_holds he)
    rw [hold hr'] at hr
    obtain rfl := Option.some.inj hr
    exact h.fits ptr e he r' hr'
  · rcases update_cases hr with ⟨-, heq⟩ | ⟨-, hr⟩
    · obtain rfl := Option.some.inj heq
      exact hlife
    · exact h.awaits fd r hr hne

-- ---------------------------------------------------------------------------
-- main
-- ---------------------------------------------------------------------------

theorem serves_initial (h : LoopInitial s) (hconf : s.conf = conf) :
    Serves conf s fun _ => .start where
  config := hconf
  socket := by
    intro fd k hk
    rw [h.sockets] at hk
    cases hk
  registered := by
    intro t fd r hr
    rw [h.sets] at hr
    cases hr
  adding := by
    intro i k hk
    rw [h.main] at hk
    cases hk
  thread := by
    intro t
    rw [h.worker]
    exact .idle (h.sets t)
  dialogue := fun k => ⟨.init rfl, (h.taken k).symm, (h.sent k).symm⟩
  fresh := fun _ _ => rfl
  closed := by
    refine ⟨[], ⟨h.closes, List.nodup_nil, fun k => ?_⟩, fun k hk => absurd hk List.not_mem_nil⟩
    rw [h.accepted]
    exact iff_of_false List.not_mem_nil fun hk => Nat.not_lt_zero k hk.1

/-- The socket of a registration is that of its record. -/
theorem Serves.fd_eq (h : Serves conf s D) {fd : Fd} {r : Registration}
    (hr : s.sets t fd = some r) : (s.record r.ptr).fd = fd :=
  (h.socket fd r.ptr (h.registered t fd r hr).1).2

theorem Serves.ptr_lt (h : Serves conf s D) {fd : Fd} {r : Registration}
    (hr : s.sets t fd = some r) : r.ptr < s.accepted :=
  (h.socket fd r.ptr (h.registered t fd r hr).1).1

/-- A thread has its own connections in its hands, and they are open. -/
theorem Serves.holds (h : Serves conf s D) (hptr : ptr ∈ (s.worker t).holds) :
    s.sockets (s.record ptr).fd = some ptr ∧ s.home ptr = t := by
  obtain ⟨r, hr, rfl⟩ := (h.thread t).held ptr hptr
  exact h.registered t _ r hr

/-- Nothing is closed. -/
theorem Serves.keepClosed (h : Serves conf s D) (hcloses : s'.closes = s.closes)
    (haccepted : s'.accepted = s.accepted) (hsockets : s'.sockets = s.sockets)
    (hfd : ∀ k, (s'.record k).fd = (s.record k).fd)
    (hD : ∀ k, (D k).life = .closed → (D' k).life = .closed) :
    ∃ l, s'.Closed l ∧ ∀ k ∈ l, (D' k).life = .closed := by
  obtain ⟨l, ⟨hl, hnodup, hmem⟩, hclosed⟩ := h.closed
  refine ⟨l, ⟨hcloses.trans hl, hnodup, fun k => ?_⟩, fun k hk => hD k (hclosed k hk)⟩
  rw [hmem, haccepted, hsockets, hfd]

theorem Serves.accept (h : Serves conf s D) {i : Nat} {sock : Fd} (hfree : s.sockets sock = none) :
    Serves conf { s with
      sockets := Function.update s.sockets sock (some s.accepted)
      record := Function.update s.record s.accepted ⟨sock, none⟩
      home := Function.update s.home s.accepted i
      main := .adding i s.accepted
      accepted := s.accepted + 1 } D := by
  have hrecord {k : Nat} (hk : k < s.accepted) :
      Function.update s.record s.accepted ⟨sock, none⟩ k = s.record k :=
    Function.update_of_ne (Nat.ne_of_lt hk) ..
  refine ⟨h.config, ?_, ?_, ?_, ?_, h.dialogue, ?_, ?_⟩
  · intro fd k hk
    rcases update_cases hk with ⟨rfl, heq⟩ | ⟨-, hold⟩
    · obtain rfl := Option.some.inj heq
      refine ⟨Nat.lt_succ_self _, ?_⟩
      change (Function.update s.record s.accepted ⟨fd, none⟩ s.accepted).fd = fd
      rw [Function.update_self]
    · obtain ⟨hlt, hfd⟩ := h.socket fd k hold
      exact ⟨Nat.lt_succ_of_lt hlt, (congrArg Record.fd (hrecord hlt)).trans hfd⟩
  · intro t fd r hr
    obtain ⟨hopen, hhome⟩ := h.registered t fd r hr
    refine ⟨?_, (Function.update_of_ne (Nat.ne_of_lt (h.ptr_lt hr)) ..).trans hhome⟩
    refine (Function.update_of_ne ?_ ..).trans hopen
    rintro rfl
    cases hfree.symm.trans hopen
  · intro i' k hk
    obtain ⟨rfl, rfl⟩ := MainPc.adding.inj hk
    have hself : Function.update s.record s.accepted ⟨sock, none⟩ s.accepted = ⟨sock, none⟩ :=
      Function.update_self ..
    refine ⟨?_, Function.update_self .., ?_, fun t fd r hr => Nat.ne_of_lt (h.ptr_lt hr)⟩
    · change Function.update s.sockets sock (some s.accepted)
        (Function.update s.record s.accepted ⟨sock, none⟩ s.accepted).fd = some s.accepted
      rw [hself, Function.update_self]
    · rw [h.fresh _ (Nat.le_refl _)]
      rfl
  · exact fun t => (h.thread t).congr fun fd r hr => ⟨hrecord (h.ptr_lt hr), rfl⟩
  · exact fun k hk => h.fresh k (Nat.le_of_succ_le hk)
  · obtain ⟨l, ⟨hcloses, hnodup, hmem⟩, hclosed⟩ := h.closed
    refine ⟨l, ⟨hcloses, hnodup, fun k => ?_⟩, hclosed⟩
    rw [hmem]
    change _ ↔ k < s.accepted + 1 ∧ Function.update s.sockets sock (some s.accepted)
      (Function.update s.record s.accepted ⟨sock, none⟩ k).fd ≠ some k
    by_cases hk : k < s.accepted
    · rw [hrecord hk]
      refine and_congr (iff_of_true hk (Nat.lt_succ_of_lt hk)) (not_congr ?_)
      by_cases hfd : (s.record k).fd = sock
      · rw [hfd, hfree, Function.update_self]
        exact iff_of_false nofun fun heq => Nat.ne_of_gt hk (Option.some.inj heq)
      · rw [Function.update_of_ne hfd]
    · refine iff_of_false (fun hk' => hk hk'.1) ?_
      rintro ⟨hlt, hne⟩
      obtain rfl : k = s.accepted := by omega
      rw [Function.update_self, Function.update_self] at hne
      exact hne rfl

/-- `main` goes to the next turn, whether or not its call has failed. -/
theorem Serves.turn (h : Serves conf s D) (i failed unplaced : Nat) :
    Serves conf { s with main := .accepting i, failed, unplaced } D :=
  { h with
    adding := nofun
    closed := h.keepClosed rfl rfl rfl (fun _ => rfl) fun _ hlife => hlife }

theorem Serves.added (h : Serves conf s D) {i k : Nat} (hmain : s.main = .adding i k)
    (hnone : s.sets i (s.record k).fd = none) (j : Nat) :
    Serves conf { s with
      main := .accepting j
      sets := Function.update s.sets i
        (Function.update (s.sets i) (s.record k).fd (some ⟨k, .epollIn⟩))
      given := Function.update s.given i (s.given i ++ [k]) } D := by
  obtain ⟨hopen, hhome, hlife, hnew⟩ := h.adding i k hmain
  refine ⟨h.config, h.socket, fun t fd r hr => ?_, nofun, fun t => ?_, h.dialogue, h.fresh,
    h.keepClosed rfl rfl rfl (fun _ => rfl) fun _ hlife => hlife⟩
  · change Function.update s.sets i _ t fd = some r at hr
    by_cases ht : t = i
    · subst ht
      rw [Function.update_self] at hr
      rcases update_cases hr with ⟨rfl, heq⟩ | ⟨-, hold⟩
      · obtain rfl := Option.some.inj heq
        exact ⟨hopen, hhome⟩
      · exact h.registered t fd r hold
    · rw [Function.update_of_ne ht] at hr
      exact h.registered t fd r hr
  · change OnThread (Function.update s.sets i _ t) s.record D (s.worker t)
    by_cases ht : t = i
    · subst ht
      rw [Function.update_self]
      exact (h.thread t).add hnone hlife
    · rw [Function.update_of_ne ht]
      exact h.thread t

-- ---------------------------------------------------------------------------
-- The threads
-- ---------------------------------------------------------------------------

/-- The state of every thread, where one has moved. -/
theorem forall_thread {P : Nat → WorkerPc → Prop} {worker : Nat → WorkerPc} (hself : P t pc)
    (hother : ∀ u, u ≠ t → P u (worker u)) (u : Nat) : P u (Function.update worker t pc u) := by
  by_cases hu : u = t
  · subst hu
    rwa [Function.update_self]
  · rw [Function.update_of_ne hu]
    exact hother u hu

/-- A thread turns to other events. -/
theorem Serves.goto (h : Serves conf s D) {evlist : List (Nat × Events)}
    (hnext : OnThread (s.sets t) s.record D (.next evlist)) :
    Serves conf (s.goto t (.next evlist)) D where
  config := h.config
  socket := h.socket
  registered := h.registered
  adding := fun i k hmain =>
    let ⟨hopen, hhome, hlife, hnew⟩ := h.adding i k hmain
    ⟨hopen, hhome, hlife, hnew⟩
  thread := forall_thread hnext fun u _ => h.thread u
  dialogue := h.dialogue
  fresh := h.fresh
  closed := h.keepClosed rfl rfl rfl (fun _ => rfl) fun _ hlife => hlife

/-- `epoll_wait` reports each connection once. -/
theorem Serves.wait (h : Serves conf s D) {ready : List (Fd × Events)} (hw : s.worker t = .next [])
    (hready : s.mayReport t ready = true) :
    Serves conf (s.goto t (.next (s.report t ready))) D := by
  unfold Loop.mayReport at hready
  simp only [Bool.and_eq_true, decide_eq_true_eq, List.all_eq_true] at hready
  obtain ⟨⟨-, hnodup⟩, hall⟩ := hready
  have hthread := h.thread t
  rw [hw] at hthread
  -- the descriptors of the events are those of `ready`
  have hfds : (s.report t ready).map (fun e => (s.record e.1).fd) = ready.map Prod.fst := by
    clear hnodup
    induction ready with
    | nil => rfl
    | cons e ready ih =>
      obtain ⟨r, hr, -⟩ := (Option.any_eq_true _ _).mp (hall e (List.mem_cons_self ..))
      have hrest := ih fun e he => hall e (List.mem_cons_of_mem _ he)
      unfold Loop.report at hrest ⊢
      simp only [List.filterMap_cons, hr, Option.map_some, List.map_cons, h.fd_eq hr, hrest]
  refine h.goto (hthread.next rfl (fun ptr e he => ?_) ?_)
  · obtain ⟨⟨fd, e'⟩, he', heq⟩ := List.mem_filterMap.mp he
    obtain ⟨r, hr, hfits⟩ := (Option.any_eq_true _ _).mp (hall _ he')
    rw [hr] at heq
    obtain ⟨rfl, rfl⟩ := Prod.mk.inj (Option.some.inj heq)
    exact ⟨r, by rw [h.fd_eq hr]; exact hr, rfl, hfits⟩
  · refine List.Nodup.of_map (fun k => (s.record k).fd) ?_
    rw [List.map_map]
    exact hfds ▸ hnodup

theorem Serves.ignore (h : Serves conf s D) (hw : s.worker t = .next ((ptr, e) :: rest)) :
    Serves conf (s.goto t (.next rest)) D := by
  have hthread := h.thread t
  rw [hw] at hthread
  refine h.goto (hthread.next rfl (fun k e' he => ?_) (List.nodup_cons.mp hthread.nodup).2)
  have hmem : (k, e') ∈ (WorkerPc.next ((ptr, e) :: rest)).evlist := List.mem_cons_of_mem _ he
  obtain ⟨r, hr, hptr⟩ := hthread.held k (mem_holds hmem)
  exact ⟨r, hr, hptr, hthread.fits k e' hmem r hr⟩

/-- The connection behind a descriptor that a thread holds. -/
theorem Serves.noteTaken (h : Serves conf s D) (hptr : ptr ∈ (s.worker t).holds)
    (received : Received) : s.noteTaken (s.record ptr).fd received =
      { s with taken := Function.update s.taken ptr (s.taken ptr ++ [received]) } := by
  rw [Loop.noteTaken, (h.holds hptr).1]

theorem Serves.noteSent (h : Serves conf s D) (hptr : ptr ∈ (s.worker t).holds)
    (sent : List UInt8) : s.noteSent (s.record ptr).fd sent =
      { s with sent := Function.update s.sent ptr (s.sent ptr ++ sent) } := by
  rw [Loop.noteSent, (h.holds hptr).1]

theorem Life.Awaits.ne_closed {life : Life} {request : Option HttpRequest} {interest : Interest}
    (h : life.Awaits request interest) : life ≠ .closed := by
  rintro rfl
  cases interest with
  | epollIn => cases h
  | epollOut =>
    obtain ⟨r, hr, -⟩ := h
    cases hr

/-- A thread handles an event as the automaton of its connection does. -/
theorem Serves.handle (h : Serves conf s D) (hw : s.worker t = .next ((ptr, e) :: rest))
    {d : Dialogue} {l : DialogueLabel} (hstep : (D ptr).step conf l = some d) (pc : WorkerPc)
    (hcurrent : pc.current = some ptr) (hrest : pc.evlist = rest) (request : Option HttpRequest)
    (hmodifying : ∀ interest, pc = .modifying ptr interest rest → d.life.Awaits request interest)
    (hclosing : pc = .closing ptr rest → d.life = .closed) :
    Serves conf { s with
      record := Function.update s.record ptr ⟨(s.record ptr).fd, request⟩
      taken := Function.update s.taken ptr d.taken
      sent := Function.update s.sent ptr d.sent
      worker := Function.update s.worker t pc } (Function.update D ptr d) := by
  have hthread := h.thread t
  rw [hw] at hthread
  obtain ⟨r, hr, hptr, -, hawaits⟩ := hthread.head
  obtain ⟨hopen, hhome⟩ := h.registered t _ r hr
  rw [hptr] at hopen hhome
  have hlt := (h.socket _ _ hopen).1
  have hrecord (k : Nat) (hk : k ≠ ptr) :
      Function.update s.record ptr ⟨(s.record ptr).fd, request⟩ k = s.record k :=
    Function.update_of_ne hk ..
  have hD (k : Nat) (hk : k ≠ ptr) : Function.update D ptr d k = D k := Function.update_of_ne hk ..
  have hself : Function.update s.record ptr ⟨(s.record ptr).fd, request⟩ ptr =
      ⟨(s.record ptr).fd, request⟩ := Function.update_self ..
  have hDself : Function.update D ptr d ptr = d := Function.update_self ..
  have hfd (k : Nat) : (Function.update s.record ptr ⟨(s.record ptr).fd, request⟩ k).fd =
      (s.record k).fd := by
    by_cases hk : k = ptr
    · rw [hk, hself]
    · rw [hrecord k hk]
  refine ⟨h.config, fun fd k hk => ?_, h.registered, fun i k hmain => ?_,
    forall_thread ?_ fun u hu => ?_, fun k => ?_, fun k hk => ?_, h.keepClosed rfl rfl rfl hfd ?_⟩
  · exact ⟨(h.socket fd k hk).1, (hfd k).trans (h.socket fd k hk).2⟩
  · obtain ⟨hkopen, hkhome, hklife, hnew⟩ := h.adding i k hmain
    have hk : k ≠ ptr := by
      rintro rfl
      exact hnew t _ r hr hptr
    refine ⟨?_, hkhome, ?_, hnew⟩
    · change s.sockets (Function.update s.record ptr ⟨(s.record ptr).fd, request⟩ k).fd = some k
      rwa [hfd]
    · rwa [hD k hk]
  · refine hthread.handle hcurrent hrest hrecord (hfd ptr) hD (fun k interest rest' hpc => ?_)
      fun k rest' hpc => ?_
    · subst hpc
      obtain rfl : k = ptr := Option.some.inj hcurrent
      obtain rfl : rest' = rest := hrest
      change (Function.update D k d k).life.Awaits
        (Function.update s.record k ⟨(s.record k).fd, request⟩ k).request interest
      rw [hDself, hself]
      exact hmodifying interest rfl
    · subst hpc
      obtain rfl : k = ptr := Option.some.inj hcurrent
      obtain rfl : rest' = rest := hrest
      rw [hDself]
      exact hclosing rfl
  · -- the connections of other threads are others
    refine (h.thread u).congr fun fd r' hr' => ?_
    have hne : r'.ptr ≠ ptr := by
      intro heq
      have hother := (h.registered u fd r' hr').2
      rw [heq, hhome] at hother
      exact hu hother.symm
    exact ⟨hrecord _ hne, hD _ hne⟩
  · by_cases hk : k = ptr
    · subst hk
      refine ⟨?_, ?_, ?_⟩
      · rw [hDself]
        exact .step l (h.dialogue k).1 trivial hstep
      · change _ = Function.update s.taken k d.taken k
        rw [hDself, Function.update_self]
      · change _ = Function.update s.sent k d.sent k
        rw [hDself, Function.update_self]
    · rw [hD k hk]
      obtain ⟨hruns, htaken, hsent⟩ := h.dialogue k
      exact ⟨hruns, htaken.trans (Function.update_of_ne hk ..).symm,
        hsent.trans (Function.update_of_ne hk ..).symm⟩
  · rw [hD k (Nat.ne_of_gt (Nat.lt_of_lt_of_le hlt hk))]
    exact h.fresh k hk
  · intro k hlife
    have hk : k ≠ ptr := by
      rintro rfl
      exact hawaits.ne_closed hlife
    rwa [hD k hk]

/-- `recv_http` -/
theorem Serves.recv (h : Serves conf s D) {stale : Mem} {received : Received}
    (hw : s.worker t = .next ((ptr, .epollIn) :: rest)) {outcome : Outcome}
    (hrecv : Version02.recvHttp stale received = .ok outcome) :
    (D ptr).step conf (.recv stale received) =
      some { D ptr with life := outcome.life, taken := s.taken ptr ++ [received] } ∧
    s.noteTaken (s.record ptr).fd received =
      { s with taken := Function.update s.taken ptr (s.taken ptr ++ [received]) } := by
  have hthread := h.thread t
  rw [hw] at hthread
  obtain ⟨r, hr, hptr, hfits, hawaits⟩ := hthread.head
  obtain ⟨hopen, -⟩ := h.registered t _ r hr
  refine ⟨?_, ?_⟩
  · have hlife : (D ptr).life = .reading := by
      cases hinterest : r.interest with
      | epollIn =>
        rw [hinterest] at hawaits
        exact hawaits
      | epollOut =>
        rw [hinterest] at hfits
        cases hfits
    rw [← (h.dialogue ptr).2.1]
    unfold Dialogue.step
    simp only [hlife, hrecv]
  · rw [Loop.noteTaken, hopen, hptr]

/-- `send_http` has a request to answer. -/
theorem Serves.send (h : Serves conf s D) (hw : s.worker t = .next ((ptr, .epollOut) :: rest))
    (files : List UInt8 → Found) (io : Outcomes) :
    ∃ r, (s.record ptr).request = some r ∧ ∀ reply after,
      sendHttpReply conf r files io = .ok (reply, after) →
      (D ptr).step conf (.send files io) =
        some { D ptr with life := after.life, sent := s.sent ptr ++ reply.sent } ∧
      s.noteSent (s.record ptr).fd reply.sent =
        { s with sent := Function.update s.sent ptr (s.sent ptr ++ reply.sent) } := by
  have hthread := h.thread t
  rw [hw] at hthread
  obtain ⟨r, hr, hptr, hfits, hawaits⟩ := hthread.head
  obtain ⟨hopen, -⟩ := h.registered t _ r hr
  cases hinterest : r.interest with
  | epollIn =>
    rw [hinterest] at hfits
    cases hfits
  | epollOut =>
    rw [hinterest] at hawaits
    obtain ⟨request, hlife, hrequest⟩ := hawaits
    refine ⟨request, hrequest, fun reply after hreply => ⟨?_, ?_⟩⟩
    · rw [← (h.dialogue ptr).2.2]
      unfold Dialogue.step
      simp only [hlife, hreply]
    · rw [Loop.noteSent, hopen, hptr]

/-- A field that is set to the value that it has. -/
theorem update_record (record : Nat → Record) (k : Nat) :
    Function.update record k ⟨(record k).fd, (record k).request⟩ = record :=
  Function.update_eq_self k record

theorem Serves.recvClose (h : Serves conf s D) {stale : Mem} {received : Received}
    (hw : s.worker t = .next ((ptr, .epollIn) :: rest))
    (hrecv : Version02.recvHttp stale received = .ok .close) :
    ∃ D', Serves conf ((s.noteTaken (s.record ptr).fd received).goto t (.closing ptr rest)) D' := by
  obtain ⟨hstep, hnote⟩ := h.recv hw hrecv
  have hnext := h.handle hw hstep (.closing ptr rest) rfl rfl (s.record ptr).request nofun
    fun _ => rfl
  rw [update_record, (h.dialogue ptr).2.2, Function.update_eq_self] at hnext
  rw [hnote]
  exact ⟨_, hnext⟩

theorem Serves.recvData (h : Serves conf s D) {stale : Mem} {received : Received} {r : HttpRequest}
    (hw : s.worker t = .next ((ptr, .epollIn) :: rest))
    (hrecv : Version02.recvHttp stale received = .ok (.rearm r)) :
    ∃ D', Serves conf (((s.noteTaken (s.record ptr).fd received).setRequest ptr r).goto t
      (.modifying ptr .epollOut rest)) D' := by
  obtain ⟨hstep, hnote⟩ := h.recv hw hrecv
  have hnext := h.handle hw hstep (.modifying ptr .epollOut rest) rfl rfl (some r)
    (fun interest hpc => ?_) nofun
  · rw [(h.dialogue ptr).2.2, Function.update_eq_self] at hnext
    rw [hnote]
    exact ⟨_, hnext⟩
  · obtain ⟨-, rfl, -⟩ := WorkerPc.modifying.inj hpc
    exact ⟨r, rfl, rfl⟩

theorem Serves.sent (h : Serves conf s D) {files : List UInt8 → Found} {io : Outcomes}
    {r : HttpRequest} {reply : Reply} {after : Afterwards}
    (hw : s.worker t = .next ((ptr, .epollOut) :: rest)) (hr : (s.record ptr).request = some r)
    (hreply : sendHttpReply conf r files io = .ok (reply, after)) :
    ∃ D', Serves conf ((s.noteSent (s.record ptr).fd reply.sent).goto t
      (.then ptr rest after.life)) D' := by
  obtain ⟨r', hr', hsend⟩ := h.send hw files io
  cases hr.symm.trans hr'
  obtain ⟨hstep, hnote⟩ := hsend reply after hreply
  have hnext := h.handle hw hstep (.then ptr rest after.life) ?_ ?_ (s.record ptr).request
    (fun interest hpc => ?_) fun hpc => ?_
  · rw [update_record, (h.dialogue ptr).2.1, Function.update_eq_self] at hnext
    rw [hnote]
    exact ⟨_, hnext⟩
  · cases after <;> rfl
  · cases after <;> rfl
  · cases after with
    | epollIn =>
      obtain ⟨-, rfl, -⟩ := WorkerPc.modifying.inj hpc
      rfl
    | close => cases hpc
  · cases after with
    | epollIn => cases hpc
    | close => rfl

/-- `epoll_mod` and the next event. -/
theorem Serves.mod (h : Serves conf s D) {interest : Interest}
    (hw : s.worker t = .modifying ptr interest rest) :
    Serves conf { s.goto t (.next rest) with
      sets := Function.update s.sets t
        (Function.update (s.sets t) (s.record ptr).fd (some ⟨ptr, interest⟩)) } D := by
  have hthread := h.thread t
  rw [hw] at hthread
  obtain ⟨r₀, hr₀, hptr₀⟩ := hthread.held ptr (List.mem_cons_self ..)
  have hreg := h.registered t _ r₀ hr₀
  -- a registration is that of a connection which has one already
  have hold {u : Nat} {fd : Fd} {r : Registration}
      (hr : Function.update s.sets t
        (Function.update (s.sets t) (s.record ptr).fd (some ⟨ptr, interest⟩)) u fd = some r) :
      ∃ r', s.sets u fd = some r' ∧ r'.ptr = r.ptr := by
    by_cases hu : u = t
    · subst hu
      rw [Function.update_self] at hr
      rcases update_cases hr with ⟨rfl, heq⟩ | ⟨-, hr⟩
      · obtain rfl := Option.some.inj heq
        exact ⟨r₀, hr₀, hptr₀⟩
      · exact ⟨r, hr, rfl⟩
    · rw [Function.update_of_ne hu] at hr
      exact ⟨r, hr, rfl⟩
  refine ⟨h.config, h.socket, fun u fd r hr => ?_, fun i k hmain => ?_, ?_, h.dialogue, h.fresh,
    h.keepClosed rfl rfl rfl (fun _ => rfl) fun _ hlife => hlife⟩
  · obtain ⟨r', hr', hptr⟩ := hold hr
    rw [← hptr]
    exact h.registered u fd r' hr'
  · obtain ⟨hopen, hhome, hlife, hnew⟩ := h.adding i k hmain
    refine ⟨hopen, hhome, hlife, fun u fd r hr => ?_⟩
    obtain ⟨r', hr', hptr⟩ := hold hr
    rw [← hptr]
    exact hnew u fd r' hr'
  · intro u
    change OnThread (Function.update s.sets t _ u) s.record D (Function.update s.worker t _ u)
    by_cases hu : u = t
    · subst hu
      rw [Function.update_self, Function.update_self]
      exact hthread.mod fun fd r hr => h.fd_eq hr
    · rw [Function.update_of_ne hu, Function.update_of_ne hu]
      exact h.thread u

/-- `close` and the next event. -/
theorem Serves.close (h : Serves conf s D) (hw : s.worker t = .closing ptr rest) :
    Serves conf ((s.close (s.record ptr).fd).goto t (.next rest)) D := by
  have hthread := h.thread t
  rw [hw] at hthread
  obtain ⟨r₀, hr₀, hptr₀⟩ := hthread.held ptr (List.mem_cons_self ..)
  obtain ⟨hopen, hhome⟩ := h.registered t _ r₀ hr₀
  rw [hptr₀] at hopen hhome
  have hold {u : Nat} {fd : Fd} {r : Registration}
      (hr : Function.update (s.sets u) (s.record ptr).fd none fd = some r) :
      fd ≠ (s.record ptr).fd ∧ s.sets u fd = some r := by
    rcases update_cases hr with ⟨-, heq⟩ | hold
    · cases heq
    · exact hold
  have hsocket {fd : Fd} (hfd : fd ≠ (s.record ptr).fd) :
      Function.update s.sockets (s.record ptr).fd none fd = s.sockets fd :=
    Function.update_of_ne hfd ..
  refine ⟨h.config, fun fd k hk => ?_, fun u fd r hr => ?_, fun i k hmain => ?_, ?_, h.dialogue,
    h.fresh, ?_⟩
  · rcases update_cases hk with ⟨-, heq⟩ | ⟨-, hk⟩
    · cases heq
    · exact h.socket fd k hk
  · obtain ⟨hfd, hr⟩ := hold hr
    obtain ⟨hropen, hrhome⟩ := h.registered u fd r hr
    exact ⟨(hsocket hfd).trans hropen, hrhome⟩
  · obtain ⟨hkopen, hkhome, hlife, hnew⟩ := h.adding i k hmain
    have hfd : (s.record k).fd ≠ (s.record ptr).fd := by
      intro hfd
      rw [hfd, hopen] at hkopen
      exact hnew t _ r₀ hr₀ (hptr₀.trans (Option.some.inj hkopen))
    exact ⟨(hsocket hfd).trans hkopen, hkhome, hlife, fun u fd r hr => hnew u fd r (hold hr).2⟩
  · refine forall_thread (hthread.close fun fd r hr => h.fd_eq hr) fun u hu => ?_
    -- the set of another thread does not have the descriptor
    have hnone : s.sets u (s.record ptr).fd = none := by
      refine Option.eq_none_iff_forall_ne_some.mpr fun r hr => ?_
      obtain ⟨hropen, hrhome⟩ := h.registered u _ r hr
      rw [hopen] at hropen
      rw [← Option.some.inj hropen, hhome] at hrhome
      exact hu hrhome.symm
    have hsame : Function.update (s.sets u) (s.record ptr).fd none = s.sets u := by
      conv_lhs => rw [← hnone]
      exact Function.update_eq_self ..
    change OnThread (Function.update (s.sets u) (s.record ptr).fd none) s.record D (s.worker u)
    rw [hsame]
    exact h.thread u
  · obtain ⟨l, ⟨hl, hnodup, hmem⟩, hclosed⟩ := h.closed
    have hnew : ptr ∉ l := fun hptr => ((hmem ptr).mp hptr).2 hopen
    refine ⟨l ++ [ptr], ⟨?_, ?_, fun k => ?_⟩, fun k hk => ?_⟩
    · change s.closes ++ [s.sockets (s.record ptr).fd] = _
      rw [hl, hopen, List.map_append]
      rfl
    · exact List.nodup_append.mpr ⟨hnodup, List.nodup_singleton _, fun k hk j hj heq =>
        hnew (List.mem_singleton.mp hj ▸ heq ▸ hk)⟩
    · rw [List.mem_append, List.mem_singleton, hmem]
      change _ ↔ k < s.accepted ∧
        Function.update s.sockets (s.record ptr).fd none (s.record k).fd ≠ some k
      by_cases hk : k = ptr
      · subst hk
        rw [Function.update_self]
        exact iff_of_true (.inr rfl) ⟨(h.socket _ _ hopen).1, nofun⟩
      · by_cases hfd : (s.record k).fd = (s.record ptr).fd
        · rw [hfd, hopen, Function.update_self]
          refine ⟨fun hor => ⟨(hor.resolve_right hk).1, nofun⟩, fun hlt => .inl ⟨hlt.1, ?_⟩⟩
          exact fun heq => hk (Option.some.inj heq).symm
        · rw [hsocket hfd]
          exact ⟨fun hor => hor.resolve_right hk, .inl⟩
    · rcases List.mem_append.mp hk with hk | hk
      · exact hclosed k hk
      · rw [List.mem_singleton.mp hk]
        exact hthread.closing ptr rest rfl

/-- **A step of the server** is a step of one connection, or of none. -/
theorem Serves.next (h : Serves conf s D) {l : LoopLabel} (hs : s.step l = some s') :
    ∃ D', Serves conf s' D' := by
  cases loop_cases hs with
  | accept hmain hfree => exact ⟨D, h.accept hfree⟩
  | acceptFails hmain => exact ⟨D, h.turn _ _ _⟩
  | added hmain hnone => exact ⟨D, h.added hmain hnone _⟩
  | notAdded hmain => exact ⟨D, h.turn _ _ _⟩
  | wait hw hready => exact ⟨D, h.wait hw hready⟩
  | recvClose hw hrecv => exact h.recvClose hw hrecv
  | recvData hw hrecv => exact h.recvData hw hrecv
  | send hw hr hreply =>
    rw [h.config] at hreply
    exact h.sent hw hr hreply
  | ignore hw => exact ⟨D, h.ignore hw⟩
  | mod hw hsome => exact ⟨D, h.mod hw⟩
  | @notMod t ptr interest rest hw hnone =>
    have hthread := h.thread t
    rw [hw] at hthread
    obtain ⟨r, hr, -⟩ := hthread.held ptr (List.mem_cons_self ..)
    cases hnone.symm.trans hr
  | close hw => exact ⟨D, h.close hw⟩

theorem serves_runs (h : s.Runs conf) : ∃ D, Serves conf s D := by
  induction h with
  | init h => exact ⟨_, serves_initial h.1 h.2⟩
  | step l _ _ hs ih =>
    obtain ⟨D, hserves⟩ := ih
    exact hserves.next hs

-- ---------------------------------------------------------------------------
-- Runs
-- ---------------------------------------------------------------------------

/-- Every connection has one thread, and every call is made on the connection of the record. -/
structure Owned (s : Loop) : Prop where
  /-- the descriptor in the record of a connection that a thread has in its hands -/
  isOpen : ∀ t, ∀ ptr ∈ (s.worker t).holds, s.sockets (s.record ptr).fd = some ptr
  registered : ∀ t, ∀ ptr ∈ (s.worker t).holds, s.sets t (s.record ptr).fd ≠ none
  exclusive : ∀ t t' ptr, ptr ∈ (s.worker t).holds → ptr ∈ (s.worker t').holds → t' = t
  nodup : ∀ t, (s.worker t).holds.Nodup
  oneSet : ∀ t t' fd, s.sets t fd ≠ none → s.sets t' fd ≠ none → t' = t
  /-- `send_http` reads what `recv_http` has set -/
  request : ∀ t ptr rest, s.worker t = .next ((ptr, .epollOut) :: rest) →
    (s.record ptr).request ≠ none
  /-- a connection is open, or has been closed once -/
  closed : ∃ l, s.Closed l

/-- **Whose connection it is**: no event is stale, no descriptor is closed twice or for another
connection, whatever the order of steps. -/
theorem connections_owned (h : s.Runs conf) : Owned s := by
  obtain ⟨D, hserves⟩ := serves_runs h
  refine ⟨fun t ptr hptr => (hserves.holds hptr).1, fun t ptr hptr => ?_,
    fun t t' ptr hptr hptr' => (hserves.holds hptr').2.symm.trans (hserves.holds hptr).2,
    fun t => (hserves.thread t).nodup, fun t t' fd ht ht' => ?_, fun t ptr rest hw => ?_, ?_⟩
  · obtain ⟨r, hr, -⟩ := (hserves.thread t).held ptr hptr
    rw [hr]
    exact nofun
  · obtain ⟨r, hr⟩ := Option.ne_none_iff_exists'.mp ht
    obtain ⟨r', hr'⟩ := Option.ne_none_iff_exists'.mp ht'
    obtain ⟨hopen, hhome⟩ := hserves.registered t fd r hr
    obtain ⟨hopen', hhome'⟩ := hserves.registered t' fd r' hr'
    rw [hopen] at hopen'
    rw [← hhome, ← hhome', Option.some.inj hopen']
  · obtain ⟨r, hr, -⟩ := hserves.send hw (fun _ => .missing) ⟨.eagain, none, .eagain, .eagain⟩
    rw [hr]
    exact nofun
  · obtain ⟨l, hl, -⟩ := hserves.closed
    exact ⟨l, hl⟩

/-- **Each connection is served as if it were the only one**: one reply for each block that has come
on it, in order and computed from that block, and no more behind a request without `keep-alive`, as
long as the blocks decide their parse by themselves and no `recv` fails. -/
theorem connection_dialogue (h : s.Runs conf) (k : Nat)
    (hown : ∀ received ∈ s.taken k, received.Own) :
    ∃ (d : Dialogue) (es : List Exchange), d.Runs conf ∧ d.Exchanges conf es ∧
      d.taken = s.taken k ∧ d.sent = s.sent k ∧ (some k ∈ s.closes → d.life = .closed) := by
  obtain ⟨D, hserves⟩ := serves_runs h
  obtain ⟨hruns, htaken, hsent⟩ := hserves.dialogue k
  obtain ⟨es, hes⟩ := dialogue_exchanges hruns (htaken ▸ hown)
  refine ⟨D k, es, hruns, hes, htaken, hsent, fun hk => ?_⟩
  obtain ⟨l, hl, hclosed⟩ := hserves.closed
  rw [hl.closes] at hk
  obtain ⟨j, hj, heq⟩ := List.mem_map.mp hk
  obtain rfl := Option.some.inj heq
  exact hclosed j hj

/-- The server with one thread, before its first connection. -/
def oneThread (conf : ConfHttp) : Loop where
  threads := 1
  eventNum := 16
  conf := conf
  sockets := fun _ => none
  record := fun _ => ⟨0, none⟩
  accepted := 0
  failed := 0
  main := .accepting 0
  sets := fun _ _ => none
  worker := fun _ => .next []
  home := fun _ => 0
  given := fun _ => []
  unplaced := 0
  taken := fun _ => []
  sent := fun _ => []
  closes := []

theorem oneThread_initial (conf : ConfHttp) : LoopInitial (oneThread conf) :=
  ⟨fun _ => rfl, rfl, rfl, rfl, fun _ _ => rfl, fun _ => rfl, fun _ => rfl, rfl, fun _ => rfl,
    fun _ => rfl, rfl⟩

def putBlock : Block where
  bytes := bytes "PUT /a HTTP/1.1\r\n\r\n"
  nonempty := by decide +kernel
  fits := by decide +kernel

/-- A request that is refused, and the end of its connection. -/
def refusal : List LoopLabel :=
  [.accept 5, .add true, .wait 0 [(5, .epollIn)], .recv 0 (fun _ => 0) (.data putBlock), .mod 0,
    .wait 0 [(5, .epollOut)],
    .send 0 (fun _ => .missing) ⟨.upTo 4096, none, .eagain, .upTo 4096⟩, .close 0]

theorem connections_owned_refusal : ∃ s : Loop, s.closes = [some 0] ∧ Owned s := by
  have hrun : (runSteps Loop.step (oneThread defaultConf) refusal).any (fun s =>
      decide (s.closes = [some 0])) = true := by
    decide +kernel
  obtain ⟨s, hs, hval⟩ := (Option.any_eq_true _ _).mp hrun
  have hruns : s.Runs defaultConf := Reachable.of_run (fun _ _ _ => trivial)
    (.init ⟨oneThread_initial defaultConf, rfl⟩) hs
  exact ⟨s, of_decide_eq_true hval, connections_owned hruns⟩

def keptBlock : Block where
  bytes := bytes "GET /a HTTP/1.1\r\nConnection: keep-alive\r\n\r\n"
  nonempty := by decide +kernel
  fits := by decide +kernel

/-- The last byte ends the search. -/
def endedBlock : Block where
  bytes := bytes "PUT /b HTTP/1.1\r\n\r\n\x00"
  nonempty := by decide +kernel
  fits := by decide +kernel

/-- Two requests on connection 0; connection 1 is refused between them. -/
def twoClients : List LoopLabel :=
  let io : Outcomes := ⟨.upTo 4096, none, .eagain, .upTo 4096⟩
  [.accept 5, .add true, .accept 6, .add true, .wait 0 [(5, .epollIn), (6, .epollIn)],
    .recv 0 (fun _ => 0) (.data keptBlock), .mod 0, .recv 0 (fun _ => 0) (.data putBlock), .mod 0,
    .wait 0 [(6, .epollOut), (5, .epollOut)], .send 0 (fun _ => .missing) io, .close 0,
    .send 0 (fun _ => .missing) io, .mod 0, .wait 0 [(5, .epollIn)],
    .recv 0 (fun _ => 32) (.data endedBlock), .mod 0, .wait 0 [(5, .epollOut)],
    .send 0 (fun _ => .missing) io, .close 0]

theorem connection_dialogue_refusal : ∃ (d : Dialogue) (es : List Exchange),
    d.Exchanges defaultConf es ∧
      d.sent = (http405Keep ++ body405) ++ (http405Nonkeep ++ body405) ∧ d.life = .closed := by
  have hrun : (runSteps Loop.step (oneThread defaultConf) twoClients).any (fun s =>
      decide (s.closes = [some 1, some 0] ∧ (∀ received ∈ s.taken 0, received.Own) ∧
        s.sent 0 = (http405Keep ++ body405) ++ (http405Nonkeep ++ body405))) = true := by
    decide +kernel
  obtain ⟨s, hs, hval⟩ := (Option.any_eq_true _ _).mp hrun
  obtain ⟨hcloses, hown, hsent⟩ := of_decide_eq_true hval
  have hruns : s.Runs defaultConf := Reachable.of_run (fun _ _ _ => trivial)
    (.init ⟨oneThread_initial defaultConf, rfl⟩) hs
  obtain ⟨d, es, -, hes, -, hall, hclosed⟩ := connection_dialogue hruns 0 hown
  refine ⟨d, es, hes, hall.trans hsent, hclosed ?_⟩
  rw [hcloses]
  decide

end

end TinyHTTP.Version02
