import TinyHTTP.Lib.SList
import TinyHTTP.Lib.Threads
import TinyHTTP.Version02.LogList

/-!
# TinyHTTP — push_log

What holds of the log list after every assignment of every thread (`Inv`): which
nodes it has, and how far the critical section of the moment has got with `tail`
and `size` (`Phase`).

* `inv_push` — what one assignment of `push_log` keeps.
-/

namespace TinyHTTP.Version02

open TinyHTTP.Lib

variable {ι A T : Type}

-- ---------------------------------------------------------------------------
-- The invariant
-- ---------------------------------------------------------------------------

/-- The thread holds the lock. -/
@[simp] def PushPc.critical : PushPc A → Prop
  | .linking _ | .settingTail _ | .counting | .unlocking => True
  | .outside | .locking _ | .signalling => False

@[simp] def WorkPc.critical : WorkPc A → Prop
  | .testing | .unlocking | .counting _ | .unlinking _ | .clearingTail | .releasing => True
  | .locking | .waiting | .waking | .checking | .reading | .copying _ | .relocking _ => False

/-- The node that a thread has filled and not yet linked. -/
@[simp] def PushPc.pending : PushPc A → Option A
  | .locking p | .linking p => some p
  | _ => none

/-- The thread has linked a node and not yet signalled. -/
@[simp] def PushPc.announces : PushPc A → Prop
  | .settingTail _ | .counting | .unlocking | .signalling => True
  | _ => False

/-- The node that `log_work` has copied and not yet unlinked. -/
@[simp] def WorkPc.taken : WorkPc A → Option A
  | .relocking ptr | .counting ptr | .unlinking ptr => some ptr
  | _ => none

/-- `log_work` has found the list not empty, and copied no node since. -/
@[simp] def WorkPc.busy : WorkPc A → Prop
  | .unlocking | .checking | .reading | .copying _ => True
  | _ => False

/-- How far a critical section has got with its assignments. -/
inductive Phase (A : Type) where
  | settled
  /-- the node is linked: neither `tail` nor `size` knows of it -/
  | linked (p : A)
  /-- `size` is one short -/
  | uncounted
  /-- `head` is NULL, and `tail` is not yet -/
  | cleared

@[simp] def PushPc.phase : PushPc A → Phase A
  | .settingTail p => .linked p
  | .counting => .uncounted
  | _ => .settled

@[simp] def WorkPc.phase : WorkPc A → Phase A
  | .unlinking _ => .uncounted
  | .clearingTail => .cleared
  | _ => .settled

def LogList.phase (s : LogList ι A T) : Phase A :=
  match s.lock with
  | none => .settled
  | some (.push i) => (s.pc i).phase
  | some .work => s.work.phase

def LogThread.next (l : LogThread A T) (a : A) : Option A := (l.node a).bind MsgNode.next

/-- `tail` and `size` are what the nodes make them, up to the assignments still to come. -/
def Phase.Fits (l : LogThread A T) (nodes : List A) : Phase A → Prop
  | .settled => l.tail = nodes.getLast? ∧ l.size = nodes.length
  | .linked p => nodes.getLast? = some p ∧ l.size + 1 = nodes.length
  | .uncounted => l.tail = nodes.getLast? ∧ l.size + 1 = nodes.length
  | .cleared => nodes = [] ∧ l.size = 0

/-- The thread in `push_log` that holds the lock. -/
def LogList.pusher (s : LogList ι A T) : Option ι :=
  match s.lock with
  | some (.push i) => some i
  | _ => none

/-- The nodes of the list are `nodes`. -/
structure Inv (s : LogList ι A T) (nodes : List A) : Prop where
  mutex : Exclusive PushPc.critical s.pusher s.pc
  workMutex : s.work.critical ↔ s.lock = some .work
  chain : Chain s.list.next s.list.head nodes
  fits : s.phase.Fits s.list nodes
  pushed : s.pushed = s.removed ++ nodes
  nodup : s.pushed.Nodup
  alloc : ∀ a ∈ s.pushed, (s.list.node a).isSome
  pending : ∀ i p, (s.pc i).pending = some p →
    (∃ msg, s.list.node p = some ⟨msg, none⟩) ∧ p ∉ s.pushed
  distinct : ∀ i j p, (s.pc i).pending = some p → (s.pc j).pending = some p → i = j
  copied : s.copied = s.removed ++ s.work.taken.toList
  taken : ∀ p, s.work.taken = some p → s.list.head = some p
  busy : s.work.busy → nodes ≠ []
  copying : ∀ ptr, s.work = .copying ptr → ptr = s.list.head
  buf : s.buf.map some = s.copied.map fun a => (s.list.node a).map MsgNode.msg
  asleep : s.work = .waiting → nodes = [] ∨ ∃ i, (s.pc i).announces

theorem inv_initial {s : LogList ι A T} (h : LogInitial s) : Inv s [] := by
  obtain ⟨hlist, hlock, hpc, hwork, ⟨hbuf, hcopied⟩, hpushed, hremoved⟩ := h
  have hpusher : s.pusher = none := by rw [LogList.pusher, hlock]
  constructor <;> simp [hlist, hlock, hpc, hwork, hbuf, hcopied, hpushed, hremoved, Chain,
    LogList.phase, Phase.Fits, Exclusive, hpusher]

/-- With the lock free, the list is as it should be. -/
theorem Inv.settled {s : LogList ι A T} {nodes : List A} (h : Inv s nodes) (hlock : s.lock = none) :
    s.list.tail = nodes.getLast? ∧ s.list.size = nodes.length := by
  have hfits := h.fits
  rw [LogList.phase, hlock] at hfits
  exact hfits

/-- A thread in the critical section of `push_log` holds the lock. -/
theorem Inv.holds {s : LogList ι A T} {nodes : List A} (h : Inv s nodes) {i : ι}
    (hi : (s.pc i).critical) : s.lock = some (.push i) := by
  have hpusher := (h.mutex i).mp hi
  unfold LogList.pusher at hpusher
  split at hpusher
  · rename_i j hj
    rw [hj, Option.some.inj hpusher]
  · cases hpusher

/-- So does `log_work`, and then no thread is in the critical section of `push_log`. -/
theorem Inv.not_work {s : LogList ι A T} {nodes : List A} (h : Inv s nodes) {i : ι}
    (hi : (s.pc i).critical) : ¬ s.work.critical := by
  intro hw
  have hlock := h.workMutex.mp hw
  rw [h.holds hi] at hlock
  cases hlock

-- ---------------------------------------------------------------------------
-- push_log
-- ---------------------------------------------------------------------------

section
variable [DecidableEq ι] {s s' : LogList ι A T} {nodes : List A} {i : ι}

theorem goto_self (s : LogList ι A T) (i : ι) (p : PushPc A) : (s.goto i p).pc i = p :=
  Function.update_self ..

theorem goto_ne (s : LogList ι A T) {i j : ι} (p : PushPc A) (hj : j ≠ i) :
    (s.goto i p).pc j = s.pc j := Function.update_of_ne hj ..

/-- A thread that has no new node in hand leaves the others' alone. -/
theorem goto_pending {p : PushPc A} (hp : ∀ q, p.pending = some q → (s.pc i).pending = some q)
    {j : ι} {q : A} (hq : ((s.goto i p).pc j).pending = some q) : (s.pc j).pending = some q := by
  by_cases hj : j = i
  · subst hj
    rw [goto_self] at hq
    exact hp q hq
  · rwa [goto_ne s p hj] at hq

/-- A thread that goes on announcing still does, and so do the others. -/
theorem goto_announces {p : PushPc A} (hp : (s.pc i).announces → p.announces)
    (h : ∃ j, (s.pc j).announces) : ∃ j, ((s.goto i p).pc j).announces := by
  obtain ⟨j, hj⟩ := h
  refine ⟨j, ?_⟩
  by_cases hji : j = i
  · subst hji
    rw [goto_self]
    exact hp hj
  · rwa [goto_ne s p hji]

/-- A thread takes the lock. -/
theorem Inv.lock (h : Inv s nodes) {p : A} (hpc : s.pc i = .locking p) (hlock : s.lock = none) :
    Inv { s.goto i (.linking p) with lock := some (.push i) } nodes := by
  have hpend : ∀ j q, ((s.goto i (.linking p)).pc j).pending = some q →
      (s.pc j).pending = some q := fun j q => goto_pending (by simp [hpc])
  have hfree : s.pusher = none := by rw [LogList.pusher, hlock]
  have hwork : ¬ s.work.critical := fun hw => by simpa [hlock] using h.workMutex.mp hw
  refine { h with
    mutex := ?_
    workMutex := iff_of_false hwork nofun
    fits := ?_
    pending := fun j q hq => h.pending j q (hpend j q hq)
    distinct := fun j k q hj hk => h.distinct j k q (hpend j q hj) (hpend k q hk)
    asleep := fun hw => (h.asleep hw).imp_right (goto_announces (by simp [hpc])) }
  · have hmutex := h.mutex
    rw [hfree] at hmutex
    exact hmutex.acquire trivial
  · have hphase : LogList.phase { s.goto i (.linking p) with lock := some (.push i) } =
        .settled := congrArg PushPc.phase (goto_self s i (.linking p))
    rw [hphase]
    exact h.settled hlock

/-- In the critical section of `push_log` a thread goes on, with what it has linked so far. -/
theorem Inv.section (h : Inv s nodes) {p : PushPc A} {l : LogThread A T}
    (hi : (s.pc i).critical) (hp : p.critical) (hpending : p.pending = none)
    (hannounces : p.announces) (hnode : l.node = s.list.node) (hhead : l.head = s.list.head)
    (hfits : (PushPc.phase p).Fits l nodes) : Inv { s.goto i p with list := l } nodes := by
  have hpend : ∀ j q, ((s.goto i p).pc j).pending = some q → (s.pc j).pending = some q :=
    fun j q => goto_pending fun q hq => by
      rw [hpending] at hq
      cases hq
  have hnext : l.next = s.list.next := by
    funext a
    rw [LogThread.next, LogThread.next, hnode]
  refine { h with
    mutex := ?_
    chain := ?_
    fits := ?_
    alloc := fun a ha => hnode ▸ h.alloc a ha
    pending := fun j q hq => hnode ▸ h.pending j q (hpend j q hq)
    distinct := fun j k q hj hk => h.distinct j k q (hpend j q hj) (hpend k q hk)
    taken := fun q hq => hhead ▸ h.taken q hq
    copying := fun ptr hptr => hhead ▸ h.copying ptr hptr
    buf := hnode ▸ h.buf
    asleep := fun hw => Or.inr ⟨i, ?_⟩ }
  · exact h.mutex.stay (iff_of_true hp hi)
  · show Chain l.next l.head nodes
    rw [hnext, hhead]
    exact h.chain
  · have hphase : LogList.phase { s.goto i p with list := l } = p.phase := by
      have hlock : (s.goto i p).lock = some (.push i) := h.holds hi
      unfold LogList.phase
      simp only [hlock, goto_self]
    rw [hphase]
    exact hfits
  · show ((s.goto i p).pc i).announces
    rw [goto_self]
    exact hannounces

/-- A thread outside the critical section moves: how far the section has got stays. -/
theorem Inv.phase_goto (h : Inv s nodes) (hi : ¬ (s.pc i).critical) (p : PushPc A) :
    (s.goto i p).phase = s.phase := by
  unfold LogList.phase
  show (match s.lock with
    | none => Phase.settled
    | some (.push j) => ((s.goto i p).pc j).phase
    | some .work => s.work.phase) = _
  cases hlock : s.lock with
  | none => rfl
  | some holder =>
    cases holder with
    | work => rfl
    | push j =>
      have hj : j ≠ i := by
        rintro rfl
        exact hi ((h.mutex j).mpr (by rw [LogList.pusher, hlock]))
      exact congrArg PushPc.phase (goto_ne s p hj)

/-- The thread gives the lock back. -/
theorem Inv.unlock (h : Inv s nodes) (hpc : s.pc i = .unlocking) :
    Inv { s.goto i .signalling with lock := none } nodes := by
  have hi : (s.pc i).critical := by rw [hpc]; trivial
  have hpend : ∀ j q, ((s.goto i .signalling).pc j).pending = some q →
      (s.pc j).pending = some q := fun j q => goto_pending nofun
  refine { h with
    mutex := h.mutex.release hi id
    workMutex := iff_of_false (h.not_work hi) nofun
    fits := ?_
    pending := fun j q hq => h.pending j q (hpend j q hq)
    distinct := fun j k q hj hk => h.distinct j k q (hpend j q hj) (hpend k q hk)
    asleep := fun hw => (h.asleep hw).imp_right (goto_announces (by simp)) }
  have hphase : s.phase = .settled := by
    unfold LogList.phase
    rw [h.holds hi]
    simp only [hpc, PushPc.phase]
  have hfits := h.fits
  rw [hphase] at hfits
  exact hfits

/-- The last step of `push_log`, which nobody sleeps through. -/
theorem Inv.leave (h : Inv s nodes) (hpc : s.pc i = .signalling) (hw : s.work ≠ .waiting) :
    Inv (s.goto i .outside) nodes := by
  have hi : ¬ (s.pc i).critical := by rw [hpc]; exact id
  have hpend : ∀ j q, ((s.goto i .outside).pc j).pending = some q →
      (s.pc j).pending = some q := fun j q => goto_pending nofun
  refine { h with
    mutex := h.mutex.stay (iff_of_false id hi)
    fits := ?_
    pending := fun j q hq => h.pending j q (hpend j q hq)
    distinct := fun j k q hj hk => h.distinct j k q (hpend j q hj) (hpend k q hk)
    asleep := fun hw' => absurd hw' hw }
  rw [h.phase_goto hi]
  exact h.fits

omit [DecidableEq ι] in
/-- `log_work` wakes up. -/
theorem Inv.wake (h : Inv s nodes) (hw : s.work = .waiting) :
    Inv { s with work := .waking } nodes := by
  have hlock : s.lock ≠ some .work := fun hl => by simpa [hw] using h.workMutex.mpr hl
  refine { h with
    workMutex := iff_of_false id hlock
    fits := ?_
    copied := by simpa [hw] using h.copied
    taken := nofun
    busy := nofun
    copying := nofun
    asleep := nofun }
  have hphase : LogList.phase { s with work := .waking } = s.phase := by
    unfold LogList.phase
    cases hl : s.lock with
    | none => rfl
    | some holder =>
      cases holder with
      | work => exact absurd hl hlock
      | push j => rfl
  rw [hphase]
  exact h.fits

end

section
variable [DecidableEq ι] [DecidableEq A] {s s' : LogList ι A T} {nodes : List A} {i : ι}

omit [DecidableEq ι] [DecidableEq A] in
/-- Nodes are copied only once they have been pushed. -/
theorem Inv.copied_pushed (h : Inv s nodes) {a : A} (ha : a ∈ s.copied) : a ∈ s.pushed := by
  rw [h.copied] at ha
  rw [h.pushed]
  rcases List.mem_append.mp ha with ha | ha
  · exact List.mem_append_left _ ha
  · have hhead := h.taken a (by simpa using ha)
    rw [chain_head h.chain] at hhead
    exact List.mem_append_right _ (List.mem_of_mem_head? hhead)

/-- A call of `push_log` fills a node that `malloc` has not returned before. -/
theorem Inv.call (h : Inv s nodes) (hpc : s.pc i = .outside) {p : A}
    (hp : s.list.node p = none) (msg : T) :
    Inv { s.goto i (.locking p) with
      list := { s.list with node := Function.update s.list.node p (some ⟨msg, none⟩) } } nodes := by
  have hi : ¬ (s.pc i).critical := by rw [hpc]; exact id
  have hfresh : ∀ a ∈ s.pushed, a ≠ p := by
    rintro a ha rfl
    have := h.alloc a ha
    rw [hp] at this
    cases this
  have hpending : ∀ j q, (s.pc j).pending = some q → q ≠ p := by
    rintro j q hq rfl
    obtain ⟨⟨msg', hmsg⟩, -⟩ := h.pending j q hq
    rw [hp] at hmsg
    cases hmsg
  -- the threads and their new nodes, this one's included
  have hcases : ∀ j q, ((s.goto i (.locking p)).pc j).pending = some q →
      (j = i ∧ q = p) ∨ (j ≠ i ∧ (s.pc j).pending = some q) := by
    intro j q hq
    by_cases hj : j = i
    · subst hj
      rw [goto_self] at hq
      exact Or.inl ⟨rfl, (Option.some.inj hq).symm⟩
    · rw [goto_ne s _ hj] at hq
      exact Or.inr ⟨hj, hq⟩
  refine { h with
    mutex := h.mutex.stay (iff_of_false id hi)
    chain := ?_
    fits := ?_
    alloc := ?_
    pending := ?_
    distinct := ?_
    buf := ?_
    asleep := fun hw => (h.asleep hw).imp_right (goto_announces (by simp [hpc])) }
  · refine chain_congr h.chain fun a ha => ?_
    have hne := hfresh a (by rw [h.pushed]; exact List.mem_append_right _ ha)
    simp only [LogThread.next, Function.update_of_ne hne]
  · have hfits := h.fits
    rw [← h.phase_goto hi (.locking p)] at hfits
    exact hfits
  · intro a ha
    simp only [Function.update_of_ne (hfresh a ha)]
    exact h.alloc a ha
  · intro j q hq
    rcases hcases j q hq with ⟨-, rfl⟩ | ⟨-, hq⟩
    · exact ⟨⟨msg, Function.update_self ..⟩, fun hmem => hfresh q hmem rfl⟩
    · obtain ⟨⟨msg', hmsg⟩, hnot⟩ := h.pending j q hq
      exact ⟨⟨msg', (Function.update_of_ne (hpending j q hq) ..).trans hmsg⟩, hnot⟩
  · intro j k q hj hk
    rcases hcases j q hj with ⟨hji, hq⟩ | ⟨-, hj'⟩
    · rcases hcases k q hk with ⟨hki, -⟩ | ⟨-, hk'⟩
      · rw [hji, hki]
      · exact absurd hq (hpending k q hk')
    · rcases hcases k q hk with ⟨-, hq⟩ | ⟨-, hk'⟩
      · exact absurd hq (hpending j q hj')
      · exact h.distinct j k q hj' hk'
  · refine h.buf.trans (List.map_congr_left fun a ha => ?_)
    have hne := hfresh a (h.copied_pushed ha)
    exact congrArg (Option.map MsgNode.msg) (Function.update_of_ne hne ..).symm

omit [DecidableEq ι] [DecidableEq A] in
theorem Inv.phase_of_push (h : Inv s nodes) (hi : (s.pc i).critical) :
    s.phase = (s.pc i).phase := by
  unfold LogList.phase
  rw [h.holds hi]

omit [DecidableEq A] in
/-- What is left to show of a list with the node linked. -/
theorem Inv.linked (h : Inv s nodes) {p : A} (hpc : s.pc i = .linking p) {l : LogThread A T}
    (hchain : Chain l.next l.head (nodes ++ [p])) (hsize : l.size = nodes.length)
    (hhead : ∀ a, s.list.head = some a → l.head = some a)
    (hmsg : ∀ a, (l.node a).map MsgNode.msg = (s.list.node a).map MsgNode.msg)
    (hpend : ∀ a, a ∉ s.pushed → l.node a = s.list.node a) :
    Inv { s.goto i (.settingTail p) with list := l, pushed := s.pushed ++ [p] }
      (nodes ++ [p]) := by
  have hi : (s.pc i).critical := by rw [hpc]; trivial
  have hmine : (s.pc i).pending = some p := by rw [hpc]; rfl
  obtain ⟨⟨msg, hnode⟩, hnew⟩ := h.pending i p hmine
  have hothers : ∀ j q, ((s.goto i (.settingTail p)).pc j).pending = some q →
      j ≠ i ∧ (s.pc j).pending = some q := by
    intro j q hq
    by_cases hj : j = i
    · subst hj
      rw [goto_self] at hq
      cases hq
    · rw [goto_ne s _ hj] at hq
      exact ⟨hj, hq⟩
  have hsome : ∀ a, (s.list.node a).isSome → (l.node a).isSome := by
    intro a ha
    have := congrArg Option.isSome (hmsg a)
    rw [Option.isSome_map, Option.isSome_map] at this
    rw [this]
    exact ha
  refine { h with
    mutex := h.mutex.stay (iff_of_true trivial hi)
    chain := hchain
    fits := ?_
    pushed := ?_
    nodup := ?_
    alloc := ?_
    pending := ?_
    distinct := ?_
    taken := fun q hq => hhead q (h.taken q hq)
    busy := fun _ => by simp
    copying := ?_
    buf := ?_
    asleep := fun _ => Or.inr ⟨i, ?_⟩ }
  · have hphase : LogList.phase
        { s.goto i (.settingTail p) with list := l, pushed := s.pushed ++ [p] } = .linked p := by
      have hlock : (s.goto i (.settingTail p)).lock = some (.push i) := h.holds hi
      unfold LogList.phase
      simp only [hlock, goto_self, PushPc.phase]
    rw [hphase]
    exact ⟨List.getLast?_concat, by simp [hsize]⟩
  · show s.pushed ++ [p] = s.removed ++ (nodes ++ [p])
    rw [h.pushed, List.append_assoc]
  · refine List.nodup_append.mpr ⟨h.nodup, List.nodup_singleton p, ?_⟩
    rintro a ha b hb rfl
    exact hnew (List.mem_singleton.mp hb ▸ ha)
  · intro a ha
    rcases List.mem_append.mp ha with ha | ha
    · exact hsome a (h.alloc a ha)
    · obtain rfl := List.mem_singleton.mp ha
      exact hsome a (by rw [hnode]; rfl)
  · intro j q hq
    obtain ⟨hj, hq'⟩ := hothers j q hq
    obtain ⟨⟨msg', hmsg'⟩, hnot⟩ := h.pending j q hq'
    have hne : q ≠ p := by
      rintro rfl
      exact hj (h.distinct j i q hq' hmine)
    refine ⟨⟨msg', (hpend q hnot).trans hmsg'⟩, ?_⟩
    intro hmem
    rcases List.mem_append.mp hmem with hmem | hmem
    · exact hnot hmem
    · exact hne (List.mem_singleton.mp hmem)
  · intro j k q hj hk
    exact h.distinct j k q (hothers j q hj).2 (hothers k q hk).2
  · intro ptr hptr
    have hbusy : s.work.busy := by rw [show s.work = .copying ptr from hptr]; trivial
    obtain ⟨a, rest, hnodes⟩ := List.exists_cons_of_ne_nil (h.busy hbusy)
    have hsome := chain_head h.chain
    rw [hnodes] at hsome
    rw [h.copying ptr hptr, hsome]
    exact (hhead a hsome).symm
  · refine h.buf.trans (List.map_congr_left fun a _ => ?_)
    exact (hmsg a).symm
  · show ((s.goto i (.settingTail p)).pc i).announces
    rw [goto_self]
    trivial

/-- The node is linked: as the head of an empty list, or behind the tail. -/
theorem Inv.link (h : Inv s nodes) {p : A} (hpc : s.pc i = .linking p) :
    ∃ l, s.link p = some l ∧
      Inv { s.goto i (.settingTail p) with list := l, pushed := s.pushed ++ [p] }
        (nodes ++ [p]) := by
  have hi : (s.pc i).critical := by rw [hpc]; trivial
  obtain ⟨⟨msg, hnode⟩, hnew⟩ := h.pending i p (by rw [hpc]; rfl)
  have hfits := h.fits
  rw [h.phase_of_push hi, hpc] at hfits
  obtain ⟨htail, hsize⟩ := hfits
  have hnext : s.list.next p = none := by rw [LogThread.next, hnode]; rfl
  unfold LogList.link
  by_cases hzero : s.list.size = 0
  · obtain rfl : nodes = [] := List.length_eq_zero_iff.mp (by omega)
    rw [if_pos hzero]
    refine ⟨_, rfl, h.linked hpc (chain_singleton hnext) (by simpa using hzero) ?_
      (fun _ => rfl) fun _ _ => rfl⟩
    intro a ha
    rw [show s.list.head = none from h.chain] at ha
    cases ha
  · rw [if_neg hzero]
    have hne : nodes ≠ [] := by
      rintro rfl
      exact hzero hsize
    have hlast := List.getLast?_eq_some_getLast hne
    generalize nodes.getLast hne = t at hlast
    have ht : t ∈ s.pushed := by
      rw [h.pushed]
      exact List.mem_append_right _ (List.mem_of_getLast? hlast)
    obtain ⟨n, hn⟩ := Option.isSome_iff_exists.mp (h.alloc t ht)
    rw [htail, hlast]
    simp only [hn, Option.map_some]
    have hnodup : nodes.Nodup := by
      have := h.nodup
      rw [h.pushed] at this
      exact (List.nodup_append.mp this).2.1
    have hchain := chain_snoc h.chain hlast hnodup hnext
      (fun hmem => hnew (by rw [h.pushed]; exact List.mem_append_right _ hmem))
    refine ⟨_, rfl, h.linked hpc ?_ hsize (fun _ ha => ha) ?_ ?_⟩
    · have hset : (s.list.setNext t n (some p)).next = Function.update s.list.next t (some p) := by
        funext a
        by_cases ha : a = t
        · subst ha
          simp [LogThread.next, LogThread.setNext]
        · simp [LogThread.next, LogThread.setNext, ha]
      rw [hset]
      exact hchain
    · intro a
      by_cases ha : a = t
      · subst ha
        simp [LogThread.setNext, hn]
      · simp [LogThread.setNext, ha]
    · intro a ha
      have hat : a ≠ t := by
        rintro rfl
        exact ha ht
      simp [LogThread.setNext, hat]

/-- **One step of a thread in `push_log`.** -/
theorem inv_push (h : Inv s nodes) (hs : s.pushStep i = some s') : ∃ nodes', Inv s' nodes' := by
  unfold LogList.pushStep at hs
  cases hpc : s.pc i with
  | outside =>
    rw [hpc] at hs
    cases hs
  | locking p =>
    rw [hpc] at hs
    simp only at hs
    split at hs
    · rename_i hlock
      obtain rfl := Option.some.inj hs
      exact ⟨nodes, h.lock hpc hlock⟩
    · cases hs
  | linking p =>
    rw [hpc] at hs
    obtain ⟨l, hl, hinv⟩ := h.link hpc
    simp only [hl, Option.map_some, Option.some.injEq] at hs
    obtain rfl := hs
    exact ⟨nodes ++ [p], hinv⟩
  | settingTail p =>
    rw [hpc] at hs
    obtain rfl := Option.some.inj hs
    have hi : (s.pc i).critical := by rw [hpc]; trivial
    have hfits := h.fits
    rw [h.phase_of_push hi, hpc] at hfits
    exact ⟨nodes, h.section hi trivial rfl trivial rfl rfl ⟨hfits.1.symm, hfits.2⟩⟩
  | counting =>
    rw [hpc] at hs
    obtain rfl := Option.some.inj hs
    have hi : (s.pc i).critical := by rw [hpc]; trivial
    have hfits := h.fits
    rw [h.phase_of_push hi, hpc] at hfits
    exact ⟨nodes, h.section hi trivial rfl trivial rfl rfl ⟨hfits.1, hfits.2⟩⟩
  | unlocking =>
    rw [hpc] at hs
    obtain rfl := Option.some.inj hs
    exact ⟨nodes, h.unlock hpc⟩
  | signalling =>
    rw [hpc] at hs
    obtain rfl := Option.some.inj hs
    by_cases hw : s.work = .waiting
    · rw [if_pos hw]
      exact ⟨nodes, (h.wake hw).leave hpc nofun⟩
    · rw [if_neg hw]
      exact ⟨nodes, h.leave hpc hw⟩

end

end TinyHTTP.Version02
