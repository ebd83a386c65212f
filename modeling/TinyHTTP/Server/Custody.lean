import Mathlib.Data.List.Perm.Basic
import TinyHTTP.Lib.Run
import TinyHTTP.Server.Branches

/-!
# TinyHTTP — who is to look at a connection next

With `EPOLLONESHOT` an event disarms its socket, and from then on somebody has to
hand the connection on: the main loop while the event is in its batch, the work
queue, a worker. `Custody` says that an open socket is armed exactly when nobody
holds it, and that nobody holds it twice.

Two steps break this. `append` may refuse a request, and then nobody has the
connection; and a socket number may be accepted while an old request for it is
still on its way, and then the new connection is armed and held at once.

* `custody_step` — every other step keeps custody; a refused connection is in limbo.
* `never_orphaned` — where the open connections are when the loop calls
  `epoll_wait`.
-/

namespace TinyHTTP.Server

open TinyHTTP.Lib TinyHTTP.Timer TinyHTTP.Http

variable {C I : Type}

/-- The one situation an open connection is in. -/
inductive Situated (s : State C) (fd : Fd) : Prop
  | armed (ha : s.armed fd ≠ none) (hq : fd ∉ s.workqueue) (hr : fd ∉ s.running)
  | queued (ha : s.armed fd = none) (hq : s.workqueue.count fd = 1) (hr : fd ∉ s.running)
  | inWorker (ha : s.armed fd = none) (hq : fd ∉ s.workqueue) (hr : s.running.count fd = 1)

/-- The main loop is about to call `epoll_wait`. -/
def State.AboutToWait (s : State C) : Prop :=
  s.batch = [] ∧ s.timeout = false ∧ s.stopServer = false

/-- The step is not a request that `append` refuses. -/
def Room (ops : ConnOps C I) (s : State C) (l : Label I) : Prop :=
  ∀ env fd mask rest, l = .handle env → s.batch = .client fd mask :: rest →
    mask.hangup = false → mask.epollin = true → (ops.readOnce (s.users fd) env.input).2 = true →
    s.workqueue.length ≤ maxRequests

/-- The step is not an accept of a number for which there is a request on its way. -/
def Unclaimed (s : State C) (l : Label I) : Prop :=
  ∀ env connfd rest, l = .handle env → s.batch = .listen :: rest →
    env.connfd = some connfd → connfd ∉ s.workqueue ++ s.running

def HandsOn (ops : ConnOps C I) (s : State C) (l : Label I) : Prop :=
  Room ops s l ∧ Unclaimed s l

/-- `write()` arms the socket whenever it returns true. -/
def WriteArms (ops : ConnOps C I) : Prop :=
  ∀ c input conn ev, ops.write c input = some (conn, ev, true) → ev ≠ none

/-- An open socket is armed exactly when it is not among the sockets that somebody holds. -/
structure Custody (s : State C) (holders : List Fd) : Prop where
  slot : ∀ fd ∈ s.openFds, (s.usersTimer fd).sockfd = fd ∧ s.sockfd fd = some fd
  holder : ∀ fd ∈ holders, s.sockfd fd = some fd ∨ s.sockfd fd = none
  nodup : holders.Nodup
  armed : ∀ fd ∈ s.openFds, s.armed fd = none ↔ fd ∈ holders

/-- The sockets in the hands of the work queue, the workers and the main loop. -/
def State.holders (s : State C) : List Fd := s.workqueue ++ s.running ++ clientFds s.batch

/-- The invariant, between two steps. The sockets in `limbo` are those whose requests `append` has
refused. -/
structure InCustody (s : State C) (limbo : List Fd) : Prop where
  custody : Custody s (s.holders ++ limbo)
  batchOpen : ∀ fd ∈ clientFds s.batch, fd ∈ s.openFds
  batchMask : ∀ fd mask, Event.client fd mask ∈ s.batch → mask.Reports

-- ---------------------------------------------------------------------------
-- Custody
-- ---------------------------------------------------------------------------

theorem Custody.perm {s : State C} {hs hs' : List Fd} (h : Custody s hs) (hp : hs.Perm hs') :
    Custody s hs' where
  slot := h.slot
  holder fd hfd := h.holder fd (hp.mem_iff.mpr hfd)
  nodup := hp.nodup_iff.mp h.nodup
  armed fd hfd := (h.armed fd hfd).trans hp.mem_iff

/-- `Custody` looks at none of the other fields. -/
theorem Custody.congr {s s' : State C} {hs : List Fd} (h : Custody s hs)
    (hopen : s'.openFds = s.openFds) (harmed : s'.armed = s.armed) (hsock : s'.sockfd = s.sockfd)
    (htimer : ∀ fd, (s'.usersTimer fd).sockfd = (s.usersTimer fd).sockfd) : Custody s' hs where
  slot := by
    intro fd hfd
    rw [htimer, hsock]
    exact h.slot fd (hopen ▸ hfd)
  holder := by rw [hsock]; exact h.holder
  nodup := h.nodup
  armed := by rw [hopen, harmed]; exact h.armed

/-- Whoever holds a socket lets go of it and arms it. -/
theorem Custody.rearm {s : State C} {fd : Fd} {hs : List Fd} (h : Custody s (fd :: hs))
    (ev : Interest) : Custody { s with armed := Function.update s.armed fd (some ev) } hs where
  slot := h.slot
  holder fd' hfd' := h.holder fd' (List.mem_cons_of_mem _ hfd')
  nodup := h.nodup.of_cons
  armed := by
    intro fd' hfd'
    show Function.update s.armed fd (some ev) fd' = none ↔ fd' ∈ hs
    have hnot := (List.nodup_cons.mp h.nodup).1
    by_cases hne : fd' = fd
    · subst hne
      simp [hnot]
    · have := h.armed fd' hfd'
      rw [Function.update_of_ne hne, this, List.mem_cons]
      simp [hne]

/-- Whoever holds a socket closes it. -/
theorem Custody.close {s : State C} {fd : Fd} {hs : List Fd} {armed : Fd → Option Interest}
    (h : Custody s (fd :: hs)) (harmed : ∀ fd', fd' ≠ fd → armed fd' = s.armed fd') :
    Custody { s with openFds := s.openFds.erase fd, armed := armed } hs where
  slot fd' hfd' := h.slot fd' (Finset.mem_of_mem_erase hfd')
  holder fd' hfd' := h.holder fd' (List.mem_cons_of_mem _ hfd')
  nodup := h.nodup.of_cons
  armed := by
    intro fd' hfd'
    obtain ⟨hne, hopen⟩ := Finset.mem_erase.mp hfd'
    show armed fd' = none ↔ fd' ∈ hs
    rw [harmed fd' hne, h.armed fd' hopen, List.mem_cons]
    simp [hne]

/-- Whoever holds a number that is not open lets go of it. -/
theorem Custody.forget {s : State C} {fd : Fd} {hs : List Fd} (h : Custody s (fd :: hs))
    (hfd : fd ∉ s.openFds) : Custody s hs where
  slot := h.slot
  holder fd' hfd' := h.holder fd' (List.mem_cons_of_mem _ hfd')
  nodup := h.nodup.of_cons
  armed := by
    intro fd' hfd'
    have hne : fd' ≠ fd := by
      rintro rfl
      exact hfd hfd'
    rw [h.armed fd' hfd', List.mem_cons]
    simp [hne]

/-- `m_sockfd` of a connection that is closed, and that nobody holds. -/
theorem Custody.unset {s : State C} {fd : Fd} {hs : List Fd} (h : Custody s hs)
    (hopen : fd ∉ s.openFds) (hheld : fd ∉ hs) :
    Custody { s with sockfd := Function.update s.sockfd fd none } hs where
  slot := by
    intro fd' hfd'
    have hne : fd' ≠ fd := fun e => hopen (e ▸ hfd')
    show _ ∧ Function.update s.sockfd fd none fd' = some fd'
    rw [Function.update_of_ne hne]
    exact h.slot fd' hfd'
  holder := by
    intro fd' hfd'
    have hne : fd' ≠ fd := fun e => hheld (e ▸ hfd')
    show Function.update s.sockfd fd none fd' = some fd' ∨
      Function.update s.sockfd fd none fd' = none
    rw [Function.update_of_ne hne]
    exact h.holder fd' hfd'
  nodup := h.nodup
  armed := h.armed

/-- A worker closes the connection it holds, which a timer may have closed before. -/
theorem Custody.closeConn {s : State C} {slot : Fd} {hs : List Fd} (h : Custody s (slot :: hs)) :
    Custody (s.closeConn slot) hs := by
  have hnot := (List.nodup_cons.mp h.nodup).1
  unfold State.closeConn
  rcases h.holder slot (List.mem_cons_self ..) with hsock | hsock
  · rw [hsock]
    by_cases hopen : slot ∈ s.openFds
    · simp only [closeFd_of_open hopen]
      have harmed : ∀ fd', fd' ≠ slot →
          Function.update s.armed slot none fd' = s.armed fd' :=
        fun fd' hne => Function.update_of_ne hne ..
      have h₁ := (h.close harmed).unset (Finset.notMem_erase slot s.openFds) hnot
      exact h₁.congr rfl rfl rfl fun _ => rfl
    · simp only [State.closeFd, if_neg hopen]
      exact ((h.forget hopen).unset hopen hnot).congr rfl rfl rfl fun _ => rfl
  · rw [hsock]
    refine h.forget ?_
    intro hopen
    rw [(h.slot slot hopen).2] at hsock
    cases hsock

/-- A number that is not open leaves the second of two lists of holders. -/
theorem Custody.forgetIn {s : State C} {fd : Fd} {hs limbo : List Fd} (h : Custody s (hs ++ limbo))
    (hfd : fd ∉ s.openFds) : Custody s (hs ++ limbo.erase fd) := by
  by_cases hm : fd ∈ limbo
  · refine Custody.forget (h.perm ?_) hfd
    exact ((List.perm_cons_erase hm).append_left hs).trans List.perm_middle
  · rw [List.erase_of_not_mem hm]
    exact h

/-- A timer closes the socket in a slot, whoever holds it. -/
theorem Custody.cbFunc {s : State C} {hs : List Fd} (h : Custody s hs) (slot : Fd) :
    Custody (s.cbFunc slot) hs := by
  unfold State.cbFunc State.closeFd
  generalize (s.usersTimer slot).sockfd = fd
  split
  · refine ⟨?_, h.holder, h.nodup, ?_⟩
    · intro fd' hfd'
      exact h.slot fd' (Finset.mem_of_mem_erase hfd')
    · intro fd' hfd'
      obtain ⟨hne, hopen⟩ := Finset.mem_erase.mp hfd'
      show Function.update s.armed fd none fd' = none ↔ fd' ∈ hs
      rw [Function.update_of_ne hne]
      exact h.armed fd' hopen
  · exact h.congr rfl rfl rfl fun _ => rfl

/-- `epoll_wait` takes sockets that are armed. -/
theorem Custody.take {s : State C} {hs fds : List Fd} (h : Custody s hs) (hnd : fds.Nodup)
    (hfds : ∀ fd ∈ fds, fd ∈ s.openFds ∧ s.armed fd ≠ none) :
    Custody { s with armed := fun fd => if fd ∈ fds then none else s.armed fd } (hs ++ fds) where
  slot := h.slot
  holder := by
    intro fd hfd
    rcases List.mem_append.mp hfd with hfd | hfd
    · exact h.holder fd hfd
    · exact .inl (h.slot fd (hfds fd hfd).1).2
  nodup := by
    refine h.nodup.append hnd ?_
    intro fd hfd hfd'
    obtain ⟨hopen, harmed⟩ := hfds fd hfd'
    exact harmed ((h.armed fd hopen).mpr hfd)
  armed := by
    intro fd hfd
    show (if fd ∈ fds then none else s.armed fd) = none ↔ fd ∈ hs ++ fds
    rw [List.mem_append, ← h.armed fd hfd]
    split <;> simp_all

/-- An accept of a number that nobody holds. -/
theorem Custody.accept {s : State C} {hs : List Fd} {fd : Fd} {t : Option Addr}
    (h : Custody s hs) (hfree : fd ∉ hs) :
    Custody { s with sockfd := Function.update s.sockfd fd (some fd)
                     openFds := insert fd s.openFds
                     armed := Function.update s.armed fd (some .epollin)
                     usersTimer := Function.update s.usersTimer fd ⟨fd, t⟩ } hs where
  slot := by
    intro fd' hfd'
    show (Function.update s.usersTimer fd ⟨fd, t⟩ fd').sockfd = fd' ∧
      Function.update s.sockfd fd (some fd) fd' = some fd'
    by_cases hne : fd' = fd
    · subst hne
      simp
    · rw [Function.update_of_ne hne, Function.update_of_ne hne]
      exact h.slot fd' (Finset.mem_of_mem_insert_of_ne hfd' hne)
  holder := by
    intro fd' hfd'
    have hne : fd' ≠ fd := fun e => hfree (e ▸ hfd')
    show Function.update s.sockfd fd (some fd) fd' = some fd' ∨
      Function.update s.sockfd fd (some fd) fd' = none
    rw [Function.update_of_ne hne]
    exact h.holder fd' hfd'
  nodup := h.nodup
  armed := by
    intro fd' hfd'
    show Function.update s.armed fd (some .epollin) fd' = none ↔ fd' ∈ hs
    by_cases hne : fd' = fd
    · subst hne
      simp [hfree]
    · rw [Function.update_of_ne hne]
      exact h.armed fd' (Finset.mem_of_mem_insert_of_ne hfd' hne)

-- ---------------------------------------------------------------------------
-- The branches
-- ---------------------------------------------------------------------------

/-- What a branch leaves behind: custody, every other socket as open as it was, and the requests,
with a new one perhaps. -/
structure HandedOn (s s' : State C) (fd : Fd) (limbo : List Fd) : Prop where
  custody : Custody s' (s'.holders ++ limbo)
  batch : s'.batch = s.batch
  open_of_ne : ∀ fd' ∈ s.openFds, fd' ≠ fd → fd' ∈ s'.openFds
  running : s'.running = s.running
  workqueue : s'.workqueue = s.workqueue ∨
    s'.workqueue = s.workqueue ++ [fd] ∧ (fd ∈ s.openFds → fd ∈ s'.openFds)

theorem handedOn_drop {s s' : State C} {fd : Fd} {limbo : List Fd} {users : Fd → C}
    {armed : Fd → Option Interest} (h : Custody s (fd :: (s.holders ++ limbo)))
    (hfd : fd ∈ s.openFds) (harmed : ∀ fd', fd' ≠ fd → armed fd' = s.armed fd')
    (hs : State.dropClient { s with users := users, armed := armed } fd = some s') :
    HandedOn s s' fd limbo := by
  obtain ⟨a, lst, -, -, -, rfl⟩ := dropClient_eq hs
  have hslot := (h.slot fd hfd).1
  rw [cbFunc_of_open (s := { s with users := users, armed := armed }) hslot hfd]
  have harmed' : ∀ fd', fd' ≠ fd → Function.update armed fd none fd' = s.armed fd' := by
    intro fd' hne
    rw [Function.update_of_ne hne]
    exact harmed fd' hne
  refine ⟨(h.close harmed').congr rfl rfl rfl fun _ => rfl, rfl, ?_, rfl, .inl rfl⟩
  intro fd' hfd' hne
  exact Finset.mem_erase.mpr ⟨hne, hfd'⟩

theorem handedOn_adjust {s mid s' : State C} {fd : Fd} {limbo : List Fd}
    (h : Custody mid (mid.holders ++ limbo)) (hbatch : mid.batch = s.batch)
    (hopen : mid.openFds = s.openFds) (hrunning : mid.running = s.running)
    (hqueue : mid.workqueue = s.workqueue ∨ mid.workqueue = s.workqueue ++ [fd])
    (hs : mid.adjustTimer fd = some s') : HandedOn s s' fd limbo := by
  obtain ⟨lst, rfl, -⟩ := adjustTimer_eq hs
  have hkeep : ∀ fd' ∈ s.openFds, fd' ∈ mid.openFds := by
    rw [hopen]
    exact fun _ hfd' => hfd'
  refine ⟨h.congr rfl rfl rfl fun _ => rfl, hbatch, fun fd' hfd' _ => hkeep fd' hfd', hrunning, ?_⟩
  exact hqueue.imp_right fun hqueue => ⟨hqueue, hkeep fd⟩

/-- `append` takes the request over, or refuses it. -/
theorem append_cases (s : State C) (fd : Fd) :
    s.workqueue.length ≤ maxRequests ∧
        s.append fd = { s with workqueue := s.workqueue ++ [fd] } ∨
      maxRequests < s.workqueue.length ∧ s.append fd = s := by
  unfold State.append
  split
  · exact .inr ⟨by omega, rfl⟩
  · exact .inl ⟨by omega, rfl⟩

theorem holders_append_perm (s : State C) (fd : Fd) (limbo : List Fd) :
    (fd :: (s.holders ++ limbo)).Perm
      (State.holders { s with workqueue := s.workqueue ++ [fd] } ++ limbo) := by
  unfold State.holders
  simp only [List.append_assoc]
  exact List.perm_middle.symm

/-- A successful read: the request is queued, or its connection is in limbo. -/
theorem handedOn_read {s s' : State C} {fd : Fd} {limbo : List Fd}
    (h : Custody s (fd :: (s.holders ++ limbo))) (hs : (s.append fd).adjustTimer fd = some s') :
    HandedOn s s' fd limbo ∨
      HandedOn s s' fd (fd :: limbo) ∧ maxRequests < s.workqueue.length := by
  rcases append_cases s fd with ⟨-, heq⟩ | ⟨hfull, heq⟩
  · rw [heq] at hs
    have h₁ : Custody { s with workqueue := s.workqueue ++ [fd] }
        (State.holders { s with workqueue := s.workqueue ++ [fd] } ++ limbo) :=
      (h.perm (holders_append_perm s fd limbo)).congr rfl rfl rfl fun _ => rfl
    exact .inl (handedOn_adjust h₁ rfl rfl rfl (.inr rfl) hs)
  · rw [heq] at hs
    have h₁ := h.perm List.perm_middle.symm
    exact .inr ⟨handedOn_adjust h₁ rfl rfl rfl (.inl rfl) hs, hfull⟩

/-- An event of a client socket that the main loop has in hand. -/
theorem handedOn_client {ops : ConnOps C I} {s s' : State C} {fd : Fd} {mask : EventMask}
    {input : I} {limbo : List Fd} (hw : WriteArms ops)
    (h : Custody s (fd :: (s.holders ++ limbo))) (hfd : fd ∈ s.openFds) (hmask : mask.Reports)
    (hs : ClientStep ops s fd mask input s') :
    HandedOn s s' fd limbo ∨ HandedOn s s' fd (fd :: limbo) ∧
      (mask.hangup = false ∧ mask.epollin = true) ∧
        (ops.readOnce (s.users fd) input).2 = true ∧ maxRequests < s.workqueue.length := by
  have hsock := (h.slot fd hfd).2
  cases hs with
  | drop users armed harmed hs =>
    exact .inl (handedOn_drop h hfd (fun fd' hne => harmed fd' hne hsock) hs)
  | read conn hmask' hread hs =>
    have h₁ : Custody { s with users := Function.update s.users fd conn }
        (fd :: (s.holders ++ limbo)) := h.congr rfl rfl rfl fun _ => rfl
    rcases handedOn_read h₁ hs with h₂ | ⟨h₂, hfull⟩
    · exact .inl ⟨h₂.custody, h₂.batch, h₂.open_of_ne, h₂.running, h₂.workqueue⟩
    · exact .inr ⟨⟨h₂.custody, h₂.batch, h₂.open_of_ne, h₂.running, h₂.workqueue⟩, hmask',
        by rw [hread], hfull⟩
  | write conn ev hwrite hs =>
    cases ev with
    | none => exact absurd rfl (hw _ _ _ _ hwrite)
    | some ev =>
      have h₁ : Custody { s with users := Function.update s.users fd conn }
          (fd :: (s.holders ++ limbo)) := h.congr rfl rfl rfl fun _ => rfl
      rw [hsock] at hs
      simp only at hs
      rw [modfd_of_open (s := { s with users := Function.update s.users fd conn }) hfd] at hs
      exact .inl (handedOn_adjust (h₁.rearm ev) rfl rfl rfl (.inl rfl) hs)
  | nothing hmask' => exact absurd hmask hmask'

theorem custody_calls {s : State C} {hs : List Fd} (h : Custody s hs) (calls : List (Addr × Fd)) :
    Custody (calls.foldl (fun s call => s.cbFunc call.2) s) hs := by
  induction calls generalizing s with
  | nil => exact h
  | cons call calls ih => exact ih (h.cbFunc call.2)

-- ---------------------------------------------------------------------------
-- Steps and runs
-- ---------------------------------------------------------------------------

/-- The first event of the batch is in the hands of the loop. -/
theorem InCustody.hand {s : State C} {limbo : List Fd} {fd : Fd} {mask : EventMask}
    {rest : List Event} (h : InCustody s limbo) (hbatch : s.batch = .client fd mask :: rest) :
    Custody { s with batch := rest }
      (fd :: (State.holders { s with batch := rest } ++ limbo)) := by
  have hfds : clientFds s.batch = fd :: clientFds rest := by rw [hbatch]; rfl
  refine (h.custody.perm ?_).congr rfl rfl rfl fun _ => rfl
  rw [State.holders, hfds]
  exact List.perm_middle.append_right limbo

/-- One event of the batch. -/
theorem custody_handle {ops : ConnOps C I} {s s' : State C} {ev : Event} {rest : List Event}
    {env : Env I} {limbo : List Fd} (hw : WriteArms ops) (h : InCustody s limbo)
    (hbatch : s.batch = ev :: rest) (hok : Unclaimed s (.handle env))
    (hs : State.handleEvent ops { s with batch := rest } ev env = some s') :
    ∃ limbo', InCustody s' limbo' ∧ (Room ops s (.handle env) → limbo'.Sublist limbo) := by
  have hmask : ∀ fd mask, Event.client fd mask ∈ rest → mask.Reports := by
    intro fd mask hm
    exact h.batchMask fd mask (hbatch ▸ List.mem_cons_of_mem _ hm)
  have hcustody := h.custody
  have hopen := h.batchOpen
  cases ev with
  | listen =>
    have hfds : clientFds s.batch = clientFds rest := by rw [hbatch]; rfl
    rw [State.holders, hfds] at hcustody
    rw [hfds] at hopen
    unfold State.handleEvent at hs
    cases hc : env.connfd with
    | none =>
      simp only [hc, Option.some.injEq] at hs
      subst hs
      exact ⟨limbo, ⟨hcustody.congr rfl rfl rfl fun _ => rfl, hopen, hmask⟩,
        fun _ => List.Sublist.refl _⟩
    | some connfd =>
      simp only [hc] at hs
      rcases accept_eq hs with rfl | ⟨lst, hnew, -, -, rfl⟩
      · exact ⟨limbo, ⟨hcustody.congr rfl rfl rfl fun _ => rfl, hopen, hmask⟩,
          fun _ => List.Sublist.refl _⟩
      have hfree : connfd ∉ s.workqueue ++ s.running ++ clientFds rest := by
        intro hm
        rcases List.mem_append.mp hm with hm | hm
        · exact hok env connfd rest rfl hbatch hc hm
        · exact hnew (hopen connfd hm)
      -- an earlier connection with the number may be in limbo
      have hcustody' := hcustody.forgetIn hnew
      have hfree' : connfd ∉ s.workqueue ++ s.running ++ clientFds rest ++ limbo.erase connfd := by
        rw [List.mem_append, not_or]
        refine ⟨hfree, ?_⟩
        exact ((List.nodup_append.mp hcustody.nodup).2.1).not_mem_erase
      refine ⟨limbo.erase connfd,
        ⟨(hcustody'.accept hfree').congr rfl rfl rfl fun _ => rfl, ?_, hmask⟩,
        fun _ => List.erase_sublist ..⟩
      intro fd hfd
      exact Finset.mem_insert_of_mem (hopen fd hfd)
  | pipe signals =>
    have hfds : clientFds s.batch = clientFds rest := by rw [hbatch]; rfl
    rw [State.holders, hfds] at hcustody
    rw [hfds] at hopen
    obtain rfl := Option.some.inj hs
    obtain ⟨timeout, stopServer, heq⟩ := foldl_signal_eq { s with batch := rest } signals
    rw [heq]
    exact ⟨limbo, ⟨hcustody.congr rfl rfl rfl fun _ => rfl, hopen, hmask⟩,
      fun _ => List.Sublist.refl _⟩
  | client fd mask =>
    have hfds : clientFds s.batch = fd :: clientFds rest := by rw [hbatch]; rfl
    have hfd : fd ∈ s.openFds := hopen fd (by rw [hfds]; exact List.mem_cons_self ..)
    have hhand := h.hand hbatch
    have hkeep {limbo' : List Fd} (h' : HandedOn { s with batch := rest } s' fd limbo') :
        InCustody s' limbo' := by
      obtain ⟨hcustody', hbatch', hopen', -, -⟩ := h'
      refine ⟨hcustody', ?_, ?_⟩
      · rw [hbatch']
        intro fd' hfd'
        refine hopen' fd' (hopen fd' (by rw [hfds]; exact List.mem_cons_of_mem _ hfd')) ?_
        rintro rfl
        have hnd := (List.nodup_append.mp hcustody.nodup).1
        rw [State.holders, hfds] at hnd
        exact (List.nodup_cons.mp (List.nodup_append.mp hnd).2.1).1 hfd'
      · rw [hbatch']
        exact hmask
    have hreports := h.batchMask fd mask (by rw [hbatch]; exact List.mem_cons_self ..)
    rcases handedOn_client hw hhand hfd hreports (client_cases hs) with
      h' | ⟨h', hin, hread, hfull⟩
    · exact ⟨limbo, hkeep h', fun _ => List.Sublist.refl _⟩
    · refine ⟨fd :: limbo, hkeep h', ?_⟩
      intro hroom
      have hle := hroom env fd mask rest rfl hbatch hin.1 hin.2 hread
      replace hfull : maxRequests < s.workqueue.length := hfull
      omega

/-- A worker that finishes `process()`. -/
theorem handedOn_finish {ops : ConnOps C I} {s s' : State C} {slot : Fd} {input : I}
    {limbo : List Fd} (h : Custody s (slot :: (s.holders ++ limbo)))
    (hs : s.finish ops slot input = some s') : HandedOn s s' slot limbo := by
  obtain ⟨conn, effect, -, rfl⟩ := finish_cases hs
  have h₁ : Custody { s with users := Function.update s.users slot conn }
      (slot :: (s.holders ++ limbo)) := h.congr rfl rfl rfl fun _ => rfl
  cases effect with
  | modfd ev =>
    by_cases hopen : slot ∈ s.openFds
    · simp only [(h.slot slot hopen).2]
      rw [modfd_of_open (s := { s with users := Function.update s.users slot conn }) hopen]
      exact ⟨h₁.rearm ev, rfl, fun fd' hfd' _ => hfd', rfl, .inl rfl⟩
    · -- a timer has closed the connection meanwhile, and `epoll_ctl` fails
      have heq : State.modfd { s with users := Function.update s.users slot conn }
          (s.sockfd slot) ev = { s with users := Function.update s.users slot conn } := by
        rcases h.holder slot (List.mem_cons_self ..) with hsock | hsock
        · simp only [hsock, State.modfd, if_neg hopen]
        · simp only [hsock, State.modfd]
      simp only [heq]
      exact ⟨h₁.forget hopen, rfl, fun fd' hfd' _ => hfd', rfl, .inl rfl⟩
  | closeConn =>
    obtain ⟨hqueue, hrunning, hbatch, hne⟩ :=
      closeConn_requests { s with users := Function.update s.users slot conn }
        (h.holder slot (List.mem_cons_self ..))
    have hholders : State.holders (State.closeConn
        { s with users := Function.update s.users slot conn } slot) = s.holders := by
      unfold State.holders
      rw [hqueue, hrunning, hbatch]
    refine ⟨?_, hbatch, hne, hrunning, .inl hqueue⟩
    show Custody (State.closeConn _ slot) (State.holders (State.closeConn _ slot) ++ limbo)
    rw [hholders]
    exact h₁.closeConn

theorem holders_eraseIdx_perm {s : State C} {i : Nat} {slot : Fd}
    (hslot : s.running[i]? = some slot) (limbo : List Fd) :
    (s.holders ++ limbo).Perm
      (slot :: (State.holders { s with running := s.running.eraseIdx i } ++ limbo)) := by
  have hrunning : s.running.Perm (slot :: s.running.eraseIdx i) := by
    obtain ⟨hi, rfl⟩ := List.getElem?_eq_some_iff.mp hslot
    exact (List.getElem_cons_eraseIdx_perm hi).symm
  have hqueue := (hrunning.append_left s.workqueue).trans List.perm_middle
  exact (hqueue.append_right (clientFds s.batch)).append_right limbo

/-- **Step lemma.** Only a request that `append` refuses gets a connection into limbo. -/
theorem custody_step {ops : ConnOps C I} {s s' : State C} {l : Label I} {limbo : List Fd}
    (hw : WriteArms ops) (h : InCustody s limbo) (hok : Unclaimed s l)
    (hs : step ops s l = some s') :
    ∃ limbo', InCustody s' limbo' ∧ (Room ops s l → limbo'.Sublist limbo) := by
  cases l with
  | elapse seconds =>
    obtain rfl := Option.some.inj hs
    exact ⟨limbo, ⟨h.custody.congr rfl rfl rfl fun _ => rfl, h.batchOpen, h.batchMask⟩,
      fun _ => List.Sublist.refl _⟩
  | epollWait events =>
    simp only [step] at hs
    split at hs
    · rename_i hwait
      obtain rfl := Option.some.inj hs
      obtain ⟨hbatch, -, -, -, hnd, hdel⟩ := hwait
      have hfds : ∀ fd ∈ clientFds events, fd ∈ s.openFds ∧ s.armed fd ≠ none := by
        intro fd hfd
        obtain ⟨ev, hev, hfd⟩ := List.mem_filterMap.mp hfd
        have hd := hdel ev hev
        cases ev with
        | listen | pipe _ => cases hfd
        | client fd' mask =>
          obtain rfl : fd' = fd := Option.some.inj hfd
          obtain ⟨hopen, ev, harmed, -⟩ := hd
          exact ⟨hopen, by simp [harmed]⟩
      have hcustody := h.custody
      rw [State.holders, hbatch, clientFds, List.filterMap_nil, List.append_nil] at hcustody
      have hperm : (s.workqueue ++ s.running ++ limbo ++ clientFds events).Perm
          (s.workqueue ++ s.running ++ clientFds events ++ limbo) := by
        rw [List.append_assoc (s.workqueue ++ s.running), List.append_assoc (s.workqueue ++ _)]
        exact List.perm_append_comm.append_left _
      refine ⟨limbo, ⟨((hcustody.take hnd hfds).perm hperm).congr rfl rfl rfl fun _ => rfl,
        fun fd hfd => (hfds fd hfd).1, ?_⟩, fun _ => List.Sublist.refl _⟩
      intro fd mask hm
      obtain ⟨-, ev, -, hmask, -⟩ := hdel _ hm
      exact hmask
    · cases hs
  | handle env =>
    simp only [step] at hs
    split at hs
    · cases hs
    · rename_i ev rest hbatch
      exact custody_handle hw h hbatch hok hs
  | timerHandler =>
    simp only [step] at hs
    split at hs
    · rename_i hbatch
      split at hs
      · rw [Option.map_eq_some_iff] at hs
        obtain ⟨⟨calls, t⟩, ht, rfl⟩ := hs
        obtain ⟨lst, -, rfl⟩ := timerHandler_eq ht
        have hreq := foldl_cbFunc_requests { s with timerLst := lst, timeout := false } calls
        have h₁ : Custody { s with timerLst := lst, timeout := false } (s.holders ++ limbo) :=
          h.custody.congr rfl rfl rfl fun _ => rfl
        have hnil := hreq.batch.trans hbatch
        refine ⟨limbo, ⟨?_, ?_, ?_⟩, fun _ => List.Sublist.refl _⟩
        · have hholders : State.holders (calls.foldl (fun s call => s.cbFunc call.2)
              { s with timerLst := lst, timeout := false }) = s.holders := by
            unfold State.holders
            rw [hreq.workqueue, hreq.running, hreq.batch]
          show Custody _ (State.holders _ ++ limbo)
          rw [hholders]
          exact custody_calls h₁ calls
        · intro fd hfd
          rw [hnil] at hfd
          cases hfd
        · intro fd mask hm
          rw [hnil] at hm
          cases hm
      · cases hs
    · cases hs
  | takeRequest =>
    simp only [step] at hs
    split at hs
    · cases hs
    rename_i fd rest hqueue
    split at hs
    · obtain rfl := Option.some.inj hs
      have hperm : (s.holders ++ limbo).Perm
          (rest ++ (s.running ++ [fd]) ++ clientFds s.batch ++ limbo) := by
        unfold State.holders
        rw [hqueue]
        refine (List.Perm.append_right _ ?_).append_right limbo
        rw [← List.append_assoc]
        exact (List.perm_append_singleton fd (rest ++ s.running)).symm
      exact ⟨limbo, ⟨(h.custody.perm hperm).congr rfl rfl rfl fun _ => rfl, h.batchOpen,
        h.batchMask⟩, fun _ => List.Sublist.refl _⟩
    · cases hs
  | finishRequest i input =>
    simp only [step] at hs
    split at hs
    · cases hs
    rename_i slot hslot
    have hhand : Custody { s with running := s.running.eraseIdx i }
        (slot :: (State.holders { s with running := s.running.eraseIdx i } ++ limbo)) :=
      (h.custody.perm (holders_eraseIdx_perm hslot limbo)).congr rfl rfl rfl fun _ => rfl
    obtain ⟨hcustody', hbatch', hopen', -, -⟩ := handedOn_finish hhand hs
    refine ⟨limbo, ⟨hcustody', ?_, ?_⟩, fun _ => List.Sublist.refl _⟩
    · rw [hbatch']
      intro fd' hfd'
      refine hopen' fd' (h.batchOpen fd' hfd') ?_
      rintro rfl
      -- nobody holds it twice
      have hnd := (List.nodup_append.mp (List.nodup_append.mp h.custody.nodup).1).2.2
      exact hnd fd' (List.mem_append_right _ (List.mem_of_getElem? hslot)) fd' hfd' rfl
    · rw [hbatch']
      exact h.batchMask

theorem custody_initial {s : State C} (h : Initial s) : InCustody s [] := by
  have hholders : s.holders = [] := by
    rw [State.holders, h.workqueue, h.running, h.batch]
    rfl
  refine ⟨?_, ?_, ?_⟩
  · rw [hholders]
    have hnone : ∀ fd, fd ∉ s.openFds := by
      rw [h.openFds]
      exact Finset.notMem_empty
    refine ⟨fun fd hfd => absurd hfd (hnone fd), ?_, List.nodup_nil,
      fun fd hfd => absurd hfd (hnone fd)⟩
    intro fd hfd
    cases hfd
  · intro fd hfd
    rw [h.batch] at hfd
    cases hfd
  · intro fd mask hm
    rw [h.batch] at hm
    cases hm

/-- **Run lemma.** -/
theorem custody_reachable {ops : ConnOps C I} {s : State C} (hw : WriteArms ops)
    (h : Reachable Initial (step ops) (HandsOn ops) s) : InCustody s [] := by
  refine h.invariant (P := fun s => InCustody s []) (fun _ h => custody_initial h) ?_
  intro t l t' ht hok hs
  obtain ⟨limbo, ht', hsub⟩ := custody_step hw ht hok.2 hs
  rw [List.sublist_nil.mp (hsub hok.1)] at ht'
  exact ht'

theorem InCustody.situated {s : State C} (h : InCustody s []) (hbatch : s.batch = []) {fd : Fd}
    (hfd : fd ∈ s.openFds) : Situated s fd := by
  have hcustody := h.custody
  rw [State.holders, hbatch, clientFds, List.filterMap_nil, List.append_nil, List.append_nil]
    at hcustody
  have hiff := hcustody.armed fd hfd
  obtain ⟨hnq, hnr, hdisj⟩ := List.nodup_append.mp hcustody.nodup
  by_cases hq : fd ∈ s.workqueue
  · refine .queued (hiff.mpr (List.mem_append_left _ hq)) ?_ ?_
    · exact List.count_eq_one_of_mem hnq hq
    · exact fun hr => hdisj fd hq fd hr rfl
  · by_cases hr : fd ∈ s.running
    · refine .inWorker (hiff.mpr (List.mem_append_right _ hr)) hq ?_
      exact List.count_eq_one_of_mem hnr hr
    · refine .armed ?_ hq hr
      intro harmed
      rcases List.mem_append.mp (hiff.mp harmed) with hm | hm
      · exact hq hm
      · exact hr hm

-- ---------------------------------------------------------------------------
-- The two steps that break custody
-- ---------------------------------------------------------------------------

/-- A request that `append` refuses leaves its connection to nobody. -/
theorem refused_orphans {ops : ConnOps C I} {s s' : State C} {fd : Fd} {mask : EventMask}
    {rest : List Event} {env : Env I} (h : InCustody s [])
    (hbatch : s.batch = .client fd mask :: rest)
    (hmask : mask.hangup = false ∧ mask.epollin = true)
    (hread : (ops.readOnce (s.users fd) env.input).2 = true)
    (hfull : maxRequests < s.workqueue.length) (hs : step ops s (.handle env) = some s') :
    fd ∈ s'.openFds ∧ ¬ Situated s' fd := by
  have hfds : clientFds s.batch = fd :: clientFds rest := by rw [hbatch]; rfl
  have hfd : fd ∈ s.openFds := h.batchOpen fd (by rw [hfds]; exact List.mem_cons_self ..)
  have hcustody := h.custody
  rw [List.append_nil, State.holders, hfds] at hcustody
  have harmed : s.armed fd = none := (hcustody.armed fd hfd).mpr (by simp)
  have hnot : fd ∉ s.workqueue ++ s.running := by
    intro hm
    exact (List.nodup_append.mp hcustody.nodup).2.2 fd hm fd (List.mem_cons_self ..) rfl
  simp only [step, hbatch, State.handleEvent, hmask, State.readBranch, hread, if_true,
    Bool.false_eq_true, if_false] at hs
  simp only [State.append, if_pos (show s.workqueue.length > maxRequests from hfull)] at hs
  obtain ⟨lst, rfl, -⟩ := adjustTimer_eq hs
  refine ⟨hfd, ?_⟩
  intro hsit
  rw [List.mem_append, not_or] at hnot
  cases hsit with
  | armed ha hq hr => exact ha harmed
  | queued ha hq hr => exact hnot.1 (List.count_pos_iff.mp (by rw [hq]; decide))
  | inWorker ha hq hr => exact hnot.2 (List.count_pos_iff.mp (by rw [hr]; decide))

/-- An accept of a number for which a request is on its way: the new connection is armed, and
held by the queue or a worker. -/
theorem claimed_twice {ops : ConnOps C I} {s s' : State C} {connfd : Fd} {rest : List Event}
    {env : Env I} (hbatch : s.batch = .listen :: rest) (hc : env.connfd = some connfd)
    (hclaimed : connfd ∈ s.workqueue ++ s.running) (hnew : connfd ∈ s'.openFds)
    (hold : connfd ∉ s.openFds) (hs : step ops s (.handle env) = some s') :
    ¬ Situated s' connfd := by
  simp only [step, hbatch, State.handleEvent, hc] at hs
  rcases accept_eq hs with rfl | ⟨lst, -, -, -, rfl⟩
  · exact absurd hnew hold
  intro hsit
  cases hsit with
  | armed ha hq hr =>
    rcases List.mem_append.mp hclaimed with hm | hm
    · exact hq hm
    · exact hr hm
  | queued ha hq hr | inWorker ha hq hr => simp at ha

end TinyHTTP.Server
