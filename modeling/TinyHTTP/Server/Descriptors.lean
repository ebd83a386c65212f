import TinyHTTP.Server.Workers

/-!
# TinyHTTP — descriptors as indices

The accept branch tests `m_user_count >= MAX_FD` and then uses the number that `accept`
returned as an index of `users` and `users_timer`, arrays of `MAX_FD` elements. The
kernel returns the lowest number that is free, and other descriptors than those of
clients have numbers as well.

* `openFds_below` — the sockets of the clients are numbers below `MAX_FD`.
* `least_lt_iff` — where the lowest free number is.
* `connfd_lt_iff` — when the index is within the arrays.
-/

namespace TinyHTTP.Server

open TinyHTTP.Lib TinyHTTP.Timer TinyHTTP.Http

variable {C I : Type}

-- ---------------------------------------------------------------------------
-- Sockets of clients
-- ---------------------------------------------------------------------------

theorem dropClient_openFds {s s' : State C} {fd : Fd} (hs : s.dropClient fd = some s') :
    s'.openFds ⊆ s.openFds := by
  obtain ⟨a, lst, -, -, -, rfl⟩ := dropClient_eq hs
  exact closeFd_openFds s _

theorem modfd_openFds (s : State C) (fd : Option Fd) (ev : Interest) :
    (s.modfd fd ev).openFds = s.openFds := by
  obtain ⟨armed, heq⟩ := modfd_eq s fd ev
  rw [heq]

theorem adjustTimer_openFds {s s' : State C} {fd : Fd} (hs : s.adjustTimer fd = some s') :
    s'.openFds = s.openFds := by
  obtain ⟨lst, rfl, -⟩ := adjustTimer_eq hs
  rfl

theorem closeConn_openFds (s : State C) (slot : Fd) : (s.closeConn slot).openFds ⊆ s.openFds := by
  unfold State.closeConn
  split
  · exact Finset.Subset.refl _
  · exact closeFd_openFds s _

theorem client_openFds {ops : ConnOps C I} {s s' : State C} {fd : Fd} {mask : EventMask}
    {input : I} (hs : ClientStep ops s fd mask input s') : s'.openFds ⊆ s.openFds := by
  cases hs with
  | drop users armed harmed hs =>
    have hsub := dropClient_openFds hs
    exact hsub
  | read conn hmask hread hs =>
    rw [adjustTimer_openFds hs]
    unfold State.append
    split <;> exact Finset.Subset.refl _
  | write conn ev hwrite hs =>
    rw [adjustTimer_openFds hs]
    cases ev with
    | none => exact Finset.Subset.refl _
    | some ev =>
      simp only [modfd_openFds]
      exact Finset.Subset.refl _
  | nothing hmask => exact Finset.Subset.refl _

/-- A socket that is opened has passed the use of its number as an index. -/
theorem accept_openFds {ops : ConnOps C I} {s s' : State C} {connfd : Fd} {timer : Addr}
    (hs : s.accept ops connfd timer = some s') {fd : Fd} (hfd : fd ∈ s'.openFds) :
    fd ∈ s.openFds ∨ fd < maxFd := by
  by_cases hlt : connfd < maxFd
  · rcases accept_eq hs with rfl | ⟨lst, -, -, -, rfl⟩
    · exact .inl hfd
    · rcases Finset.mem_insert.mp hfd with rfl | hfd
      · exact .inr hlt
      · exact .inl hfd
  · unfold State.accept at hs
    split at hs
    · cases hs
    split at hs
    · obtain rfl := Option.some.inj hs
      exact .inl hfd
    · rw [if_pos (Nat.not_lt.mp hlt)] at hs
      cases hs

/-- **Step lemma.** -/
theorem openFds_step {ops : ConnOps C I} {s s' : State C} {l : Label I}
    (hs : step ops s l = some s') {fd : Fd} (hfd : fd ∈ s'.openFds) :
    fd ∈ s.openFds ∨ fd < maxFd := by
  cases l with
  | elapse seconds =>
    obtain rfl := Option.some.inj hs
    exact .inl hfd
  | epollWait events =>
    simp only [step] at hs
    split at hs
    · obtain rfl := Option.some.inj hs
      exact .inl hfd
    · cases hs
  | handle env =>
    simp only [step] at hs
    split at hs
    · cases hs
    rename_i ev rest hbatch
    cases ev with
    | listen =>
      unfold State.handleEvent at hs
      cases hc : env.connfd with
      | none =>
        simp only [hc, Option.some.injEq] at hs
        subst hs
        exact .inl hfd
      | some connfd =>
        simp only [hc] at hs
        exact accept_openFds hs hfd
    | pipe signals =>
      obtain ⟨timeout, stopServer, heq⟩ := foldl_signal_eq { s with batch := rest } signals
      obtain rfl := Option.some.inj hs
      rw [heq] at hfd
      exact .inl hfd
    | client fd' mask => exact .inl (client_openFds (client_cases hs) hfd)
  | timerHandler =>
    simp only [step] at hs
    split at hs
    · split at hs
      · obtain ⟨⟨calls, t⟩, ht, rfl⟩ := Option.map_eq_some_iff.mp hs
        obtain ⟨lst, -, rfl⟩ := timerHandler_eq ht
        have hsub := foldl_cbFunc_openFds { s with timerLst := lst, timeout := false } calls
        exact .inl (hsub hfd)
      · cases hs
    · cases hs
  | takeRequest =>
    simp only [step] at hs
    split at hs
    · cases hs
    split at hs
    · obtain rfl := Option.some.inj hs
      exact .inl hfd
    · cases hs
  | finishRequest i input =>
    simp only [step] at hs
    split at hs
    · cases hs
    rename_i slot hslot
    obtain ⟨conn, effect, -, rfl⟩ := finish_cases hs
    cases effect with
    | modfd ev =>
      simp only [modfd_openFds] at hfd
      exact .inl hfd
    | closeConn =>
      have hsub := closeConn_openFds _ slot hfd
      exact .inl hsub

/-- **Run lemma.** -/
theorem openFds_below {ops : ConnOps C I} {s : State C}
    (h : Reachable Initial (step ops) (fun _ _ => True) s) : ∀ fd ∈ s.openFds, fd < maxFd := by
  refine h.invariant (P := fun s => ∀ fd ∈ s.openFds, fd < maxFd) ?_ ?_
  · intro t ht fd hfd
    rw [ht.openFds] at hfd
    simp at hfd
  · intro t l t' ht _ hs fd hfd
    rcases openFds_step hs hfd with hfd | hlt
    · exact ht fd hfd
    · exact hlt

-- ---------------------------------------------------------------------------
-- The lowest free number
-- ---------------------------------------------------------------------------

/-- The lowest number not in use is below `n` when fewer than `n` numbers below it are in use. -/
theorem least_lt_iff {used : Finset Nat} {m n : Nat} (h : IsLeast {k | k ∉ used} m) :
    m < n ↔ (used.filter (· < n)).card < n := by
  constructor
  · intro hlt
    have hsub : used.filter (· < n) ⊆ (Finset.range n).erase m := by
      intro k hk
      obtain ⟨hused, hk⟩ := Finset.mem_filter.mp hk
      refine Finset.mem_erase.mpr ⟨?_, Finset.mem_range.mpr hk⟩
      rintro rfl
      exact h.1 hused
    have hcard := Finset.card_le_card hsub
    rw [Finset.card_erase_of_mem (Finset.mem_range.mpr hlt), Finset.card_range] at hcard
    omega
  · intro hcard
    by_contra hle
    have hsub : Finset.range n ⊆ used.filter (· < n) := by
      intro k hk
      have hk := Finset.mem_range.mp hk
      refine Finset.mem_filter.mpr ⟨?_, hk⟩
      by_contra hfree
      have hmin := h.2 hfree
      omega
    have hle := Finset.card_le_card hsub
    rw [Finset.card_range] at hle
    omega

/-- Above the clients `1` to `n`, with `0` used for something else. -/
theorem isLeast_next {s : State C} {n : Nat} (hopen : s.openFds = Finset.Icc 1 n) :
    IsLeast {fd | fd ∉ s.openFds ∪ {0}} (n + 1) := by
  refine ⟨by simp [hopen], ?_⟩
  intro fd hfd
  obtain ⟨hzero, hlarge⟩ : ¬ fd = 0 ∧ (1 ≤ fd → n < fd) := by
    simpa [hopen] using hfd
  exact hlarge (Nat.one_le_iff_ne_zero.mpr hzero)

-- ---------------------------------------------------------------------------
-- A full table
-- ---------------------------------------------------------------------------

/-- With the books in order, a client that passes the test is let in. -/
theorem accept_admits (ops : ConnOps C I) {s : State C} {connfd : Fd} {timer : Addr} (h : Inv s)
    (hnew : connfd ∉ s.openFds) (hcount : s.userCount < maxFd) (hlt : connfd < maxFd)
    (htimer : timer ∉ s.timerLst.live) :
    ∃ s', s.accept ops connfd timer = some s' ∧ s'.openFds = insert connfd s.openFds ∧
      s'.batch = s.batch ∧ s'.timeout = s.timeout ∧ s'.stopServer = s.stopServer := by
  obtain ⟨p, htimed, -⟩ := h.table
  have hfresh : p timer = none := by
    have hnot := htimer
    rw [show s.timerLst = s.timing.timerLst from rfl, htimed.sound.live_iff] at hnot
    simpa using hnot
  obtain ⟨lst, hlst, -⟩ := sound_add (s.clock + 3 * timeslot) connfd htimed.sound hfresh
  replace hlst : (s.timerLst.alloc timer (s.clock + 3 * timeslot) connfd).addTimer (some timer) =
    some lst := hlst
  unfold State.accept
  rw [if_neg hnew, if_neg (Int.not_le.mpr hcount), if_neg (Nat.not_le.mpr hlt), if_neg htimer]
  simp only [hlst, Option.bind_eq_bind, Option.bind_some]
  exact ⟨_, rfl, rfl, rfl, rfl, rfl⟩

/-- The kernel hands out the lowest number that neither a client nor something else uses. -/
def HandsOutLowest (other : Finset Fd) (s : State C) (l : Label I) : Prop :=
  ∀ env rest connfd, l = .handle env → s.batch = .listen :: rest → env.connfd = some connfd →
    IsLeast {fd | fd ∉ s.openFds ∪ other} connfd

/-- The next client gets the next number. -/
theorem welcome_next {ops : ConnOps C I} (input : I) {s : State C} {n : Nat}
    (h : Reachable Initial (step ops) (HandsOutLowest {0}) s) (hinv : Inv s) (hn : n + 1 < maxFd)
    (hopen : s.openFds = Finset.Icc 1 n) (hbatch : s.batch = []) (htimeout : s.timeout = false)
    (hstop : s.stopServer = false) :
    ∃ s', Reachable Initial (step ops) (HandsOutLowest {0}) s' ∧ Inv s' ∧
      s'.openFds = Finset.Icc 1 (n + 1) ∧ s'.batch = [] ∧ s'.timeout = false ∧
      s'.stopServer = false := by
  -- the new client is reported
  have hwait : s.CanWait [.listen] := by
    refine ⟨hbatch, htimeout, hstop, by decide, List.nodup_nil, ?_⟩
    intro ev hev
    rw [List.mem_singleton.mp hev]
    trivial
  obtain ⟨t, ht⟩ : ∃ t, step ops s (.epollWait [.listen]) = some t := ⟨_, if_pos hwait⟩
  have htreach : Reachable Initial (step ops) (HandsOutLowest {0}) t :=
    .step (.epollWait [.listen]) h (fun _ _ _ hl => by cases hl) ht
  have htinv : Inv t := inv_step hinv (fun _ _ _ _ hl => by cases hl) ht
  have hfields : t.openFds = s.openFds ∧ t.batch = [.listen] ∧ t.timeout = s.timeout ∧
      t.stopServer = s.stopServer := by
    simp only [step, if_pos hwait, Option.some.injEq] at ht
    subst ht
    exact ⟨rfl, rfl, rfl, rfl⟩
  obtain ⟨h₁, h₂, h₃, h₄⟩ := hfields
  -- and accepted, with a timer at an address that is not in use
  obtain ⟨timer, htimer⟩ := Infinite.exists_notMem_finset t.timerLst.live.toFinset
  have hrest : Inv { t with batch := [] } := by
    obtain ⟨⟨p, htimed, howned⟩, hsock, hqueue, -, -⟩ := htinv
    refine ⟨⟨p, htimed, howned.congr rfl rfl rfl⟩, hsock, hqueue, List.nodup_nil, ?_⟩
    intro fd hfd
    cases hfd
  obtain ⟨p, -, howned⟩ := htinv.table
  have hcount := howned.count
  rw [h₁, hopen, Nat.card_Icc, Nat.add_sub_cancel] at hcount
  have hnew : n + 1 ∉ t.openFds := by simp [h₁, hopen]
  have hroom : t.userCount < maxFd := by omega
  obtain ⟨s', hs', hopen', hbatch', htimeout', hstop'⟩ :=
    accept_admits ops hrest hnew hroom hn fun hlive => htimer (List.mem_toFinset.mpr hlive)
  have hstep : step ops t (.handle ⟨some (n + 1), timer, input⟩) = some s' := by
    simp only [step, h₂]
    exact hs'
  have hlowest : HandsOutLowest {0} t (.handle ⟨some (n + 1), timer, input⟩) := by
    intro env rest connfd hl _ hconnfd
    cases hl
    cases hconnfd
    exact isLeast_next (h₁.trans hopen)
  refine ⟨s', .step _ htreach hlowest hstep, inv_step htinv ?_ hstep, ?_, hbatch', ?_, ?_⟩
  · intro _ _ _ _ hl
    cases hl
  · rw [hopen']
    show insert (n + 1) t.openFds = _
    rw [h₁, hopen]
    exact Finset.insert_Icc_right_eq_Icc_add_one (by omega)
  · rw [htimeout']
    exact h₃.trans htimeout
  · rw [hstop']
    exact h₄.trans hstop

/-- Clients that stay fill the table from 1 on. -/
theorem clients_fill (ops : ConnOps C I) (input : I) {s₀ : State C} (h : Initial s₀) {n : Nat}
    (hn : n < maxFd) : ∃ s, Reachable Initial (step ops) (HandsOutLowest {0}) s ∧ Inv s ∧
      s.openFds = Finset.Icc 1 n ∧ s.batch = [] ∧ s.timeout = false ∧ s.stopServer = false := by
  induction n with
  | zero =>
    refine ⟨s₀, .init h, inv_initial h, ?_, h.batch, h.timeout, h.stopServer⟩
    rw [h.openFds]
    rfl
  | succ n ih =>
    obtain ⟨s, hreach, hinv, hopen, hbatch, htimeout, hstop⟩ := ih (by omega)
    exact welcome_next input hreach hinv hn hopen hbatch htimeout hstop

/-- **The index that `accept` returns.** The test lets a client in by the number of clients; the
number of its socket is below `MAX_FD` when the open sockets and the `other` descriptors below
`MAX_FD` are fewer. -/
theorem connfd_lt_iff {ops : ConnOps C I} {s : State C}
    (h : Reachable Initial (step ops) (fun _ _ => True) s) {other : Finset Fd}
    (hother : Disjoint s.openFds other) {connfd : Fd}
    (hleast : IsLeast {fd | fd ∉ s.openFds ∪ other} connfd) :
    (s.userCount < maxFd → connfd < maxFd) ↔
      (s.userCount < maxFd → s.openFds.card + (other.filter (· < maxFd)).card < maxFd) := by
  have hopen : s.openFds.filter (· < maxFd) = s.openFds :=
    Finset.filter_true_of_mem (openFds_below h)
  rw [least_lt_iff hleast, Finset.filter_union, hopen, Finset.card_union_of_disjoint]
  exact hother.mono_right (Finset.filter_subset ..)

/-- Clients 1 to 3, with two other descriptors: the next client gets the number 5. -/
theorem connfd_lt_iff_three : ∃ s : State HttpConn, s.openFds = Finset.Icc 1 3 ∧
    IsLeast {fd | fd ∉ s.openFds ∪ {0, 4}} 5 ∧ s.userCount < maxFd ∧ (5 : Fd) < maxFd := by
  obtain ⟨s, hreach, hinv, hopen, -⟩ :=
    clients_fill httpOps (arrival []) coldStart_initial (by decide : 3 < maxFd)
  have hother : Disjoint s.openFds {0, 4} := by
    rw [hopen]
    decide
  have hleast : IsLeast {fd | fd ∉ s.openFds ∪ {0, 4}} 5 := by
    refine ⟨by simp [hopen], fun fd hfd => ?_⟩
    by_contra hlt
    rw [hopen] at hfd
    interval_cases fd <;> simp at hfd
  obtain ⟨p, -, howned⟩ := hinv.table
  have hcount : s.userCount < maxFd := by
    rw [howned.count, hopen]
    decide
  have hfew : s.openFds.card + (({0, 4} : Finset Fd).filter (· < maxFd)).card < maxFd := by
    rw [hopen]
    decide
  have hruns : Reachable Initial (step httpOps) (fun _ _ => True) s :=
    hreach.invariant (fun _ h => .init h) fun _ _ _ ht _ hs => .step _ ht trivial hs
  exact ⟨s, hopen, hleast, hcount,
    (connfd_lt_iff hruns hother hleast).mpr (fun _ => hfew) hcount⟩

/-- One descriptor is used for something else; the next client after 65535 passes the test and
gets the number 65536. -/
theorem connfd_passes : ¬ ∀ (s : State HttpConn) (other : Finset Fd) (connfd : Fd),
    Reachable Initial (step httpOps) (HandsOutLowest other) s → other.Nonempty →
    Disjoint s.openFds other → IsLeast {fd | fd ∉ s.openFds ∪ other} connfd →
    s.userCount < maxFd → connfd < maxFd := by
  intro hall
  obtain ⟨s, hreach, hinv, hopen, -⟩ :=
    clients_fill httpOps (arrival []) coldStart_initial (by decide : 65535 < maxFd)
  obtain ⟨p, -, howned⟩ := hinv.table
  have hcount := howned.count
  rw [hopen, Nat.card_Icc] at hcount
  have hlt := hall s {0} 65536 hreach (Finset.singleton_nonempty 0) ?_ (isLeast_next hopen) ?_
  · exact absurd hlt (by decide)
  · rw [hopen, Finset.disjoint_singleton_right]
    simp
  · unfold maxFd
    omega

end TinyHTTP.Server
