import TinyHTTP.Lib.Run
import TinyHTTP.Version02.PushLog

/-!
# TinyHTTP — log_work

`log_work` finds the list not empty in one critical section and unlinks its head
in the next. In between only `push_log` changes the list, behind the tail, so the
head that is read without the lock is the head that is unlinked.

* `inv_step` — what one assignment of any thread keeps.
* `log_list_intact` — every node is consumed once, in the order of the pushes.
-/

namespace TinyHTTP.Version02

open TinyHTTP.Lib

variable {ι A T : Type}

-- ---------------------------------------------------------------------------
-- log_work
-- ---------------------------------------------------------------------------

section
variable {s s' : LogList ι A T} {nodes : List A}

/-- While `log_work` does not hold the lock, where it is does not matter to the list. -/
theorem phase_work (hlock : s.lock ≠ some .work) (w : WorkPc A) :
    LogList.phase { s with work := w } = s.phase := by
  unfold LogList.phase
  cases hl : s.lock with
  | none => rfl
  | some holder =>
    cases holder with
    | work => exact absurd hl hlock
    | push i => rfl

theorem Inv.phase_of_work (h : Inv s nodes) (hw : s.work.critical) :
    s.phase = s.work.phase := by
  unfold LogList.phase
  rw [h.workMutex.mp hw]

theorem Inv.pusher_of_work (h : Inv s nodes) (hw : s.work.critical) : s.pusher = none := by
  rw [LogList.pusher, h.workMutex.mp hw]

/-- `log_work` goes from one place outside its critical sections to another, with no node taken. -/
theorem Inv.roam (h : Inv s nodes) (hw : ¬ s.work.critical) (htaken : s.work.taken = none)
    {w : WorkPc A} (hw' : ¬ w.critical) (htaken' : w.taken = none)
    (hbusy : w.busy → nodes ≠ []) (hcopying : ∀ ptr, w = .copying ptr → ptr = s.list.head)
    (hasleep : w ≠ .waiting) : Inv { s with work := w } nodes := by
  have hlock : s.lock ≠ some .work := fun hl => hw (h.workMutex.mpr hl)
  refine { h with
    workMutex := iff_of_false hw' hlock
    fits := ?_
    copied := ?_
    taken := fun p hp => by cases htaken'.symm.trans hp
    busy := hbusy
    copying := hcopying
    asleep := fun he => absurd he hasleep }
  · rw [phase_work hlock]
    exact h.fits
  · show s.copied = s.removed ++ w.taken.toList
    rw [h.copied, htaken, htaken']

/-- `log_work` takes the lock. -/
theorem Inv.workLock (h : Inv s nodes) (hlock : s.lock = none) {w : WorkPc A}
    (hw : w.critical) (htaken : w.taken = s.work.taken) (hphase : w.phase = .settled)
    (hbusy : ¬ w.busy) : Inv { s with work := w, lock := some .work } nodes := by
  have hpusher : s.pusher = none := by rw [LogList.pusher, hlock]
  refine { h with
    mutex := ?_
    workMutex := iff_of_true hw rfl
    fits := ?_
    copied := ?_
    taken := fun p hp => h.taken p (htaken ▸ hp)
    busy := fun hb => absurd hb hbusy
    copying := ?_
    asleep := ?_ }
  · have hmutex := h.mutex
    rw [hpusher] at hmutex
    exact hmutex
  · show Phase.Fits s.list nodes w.phase
    rw [hphase]
    exact h.settled hlock
  · show s.copied = s.removed ++ w.taken.toList
    rw [h.copied, htaken]
  · rintro ptr rfl
    exact absurd hw id
  · rintro rfl
    exact absurd hw id

/-- In a critical section `log_work` goes on, with what it has assigned so far. -/
theorem Inv.workSection (h : Inv s nodes) (hw : s.work.critical) {w : WorkPc A}
    (hw' : w.critical) (htaken : w.taken = s.work.taken) {l : LogThread A T}
    (hnode : l.node = s.list.node) (hhead : l.head = s.list.head)
    (hfits : (WorkPc.phase w).Fits l nodes) (hbusy : w.busy → nodes ≠ []) :
    Inv { s with work := w, list := l } nodes := by
  have hlock := h.workMutex.mp hw
  have hnext : l.next = s.list.next := by
    funext a
    rw [LogThread.next, LogThread.next, hnode]
  refine { h with
    workMutex := iff_of_true hw' hlock
    chain := ?_
    fits := ?_
    alloc := fun a ha => hnode ▸ h.alloc a ha
    pending := fun j q hq => hnode ▸ h.pending j q hq
    copied := ?_
    taken := fun p hp => hhead ▸ h.taken p (htaken ▸ hp)
    busy := hbusy
    copying := ?_
    buf := hnode ▸ h.buf
    asleep := ?_ }
  · show Chain l.next l.head nodes
    rw [hnext, hhead]
    exact h.chain
  · have hphase : LogList.phase { s with work := w, list := l } = w.phase := by
      unfold LogList.phase
      simp only [hlock]
    rw [hphase]
    exact hfits
  · show s.copied = s.removed ++ w.taken.toList
    rw [h.copied, htaken]
  · rintro ptr rfl
    exact absurd hw' id
  · rintro rfl
    exact absurd hw' id

/-- `log_work` gives the lock back. -/
theorem Inv.workUnlock (h : Inv s nodes) (hw : s.work.critical) (hphase : s.work.phase = .settled)
    (htaken : s.work.taken = none) {w : WorkPc A} (hw' : ¬ w.critical)
    (htaken' : w.taken = none) (hbusy : w.busy → nodes ≠ [])
    (hcopying : ∀ ptr, w = .copying ptr → ptr = s.list.head)
    (hasleep : w = .waiting → nodes = []) :
    Inv { s with work := w, lock := none } nodes := by
  refine { h with
    mutex := ?_
    workMutex := iff_of_false hw' nofun
    fits := ?_
    copied := ?_
    taken := fun p hp => by cases htaken'.symm.trans hp
    busy := hbusy
    copying := hcopying
    asleep := fun he => Or.inl (hasleep he) }
  · have hmutex := h.mutex
    rw [h.pusher_of_work hw] at hmutex
    exact hmutex
  · have hfits := h.fits
    rw [h.phase_of_work hw, hphase] at hfits
    exact hfits
  · show s.copied = s.removed ++ w.taken.toList
    rw [h.copied, htaken, htaken']

/-- The message of the node that `ptr` points to is copied. -/
theorem Inv.copy (h : Inv s nodes) {ptr : Option A} (hw : s.work = .copying ptr) :
    ∃ a n, ptr = some a ∧ s.list.node a = some n ∧ Inv { s with
      work := .relocking a
      buf := s.buf ++ [n.msg]
      copied := s.copied ++ [a] } nodes := by
  have hcrit : ¬ s.work.critical := by rw [hw]; exact id
  have hlock : s.lock ≠ some .work := fun hl => hcrit (h.workMutex.mpr hl)
  obtain ⟨a, rest, hnodes⟩ := List.exists_cons_of_ne_nil (h.busy (by rw [hw]; trivial))
  have hhead := chain_head h.chain
  rw [hnodes] at hhead
  have ha : a ∈ s.pushed := by
    rw [h.pushed, hnodes]
    exact List.mem_append_right _ (List.mem_cons_self ..)
  obtain ⟨n, hn⟩ := Option.isSome_iff_exists.mp (h.alloc a ha)
  refine ⟨a, n, (h.copying ptr hw).trans hhead, hn, { h with
    workMutex := iff_of_false id hlock
    fits := ?_
    copied := ?_
    taken := fun p hp => hhead.trans hp
    busy := nofun
    copying := nofun
    buf := ?_
    asleep := nofun }⟩
  · show Phase.Fits s.list nodes (LogList.phase { s with work := .relocking a })
    rw [phase_work hlock]
    exact h.fits
  · show s.copied ++ [a] = s.removed ++ [a]
    rw [h.copied, hw]
    simp
  · show (s.buf ++ [n.msg]).map some =
      (s.copied ++ [a]).map fun a => (s.list.node a).map MsgNode.msg
    rw [List.map_append, List.map_append, h.buf]
    simp [hn]

/-- What is left to show of a list with its first node unlinked. -/
theorem Inv.unlinked {p : A} (h : Inv s (p :: nodes)) (hw : s.work = .unlinking p) {w : WorkPc A}
    (hw' : w.critical) (htaken : w.taken = none) {head : Option A}
    (hchain : Chain s.list.next head nodes)
    (hfits : (WorkPc.phase w).Fits { s.list with head := head } nodes) (hbusy : ¬ w.busy) :
    Inv { s with
      list := { s.list with head := head }
      work := w
      removed := s.removed ++ s.list.head.toList } nodes := by
  have hlock := h.workMutex.mp (by rw [hw]; trivial)
  have hhead : s.list.head = some p := chain_head h.chain
  refine { h with
    workMutex := iff_of_true hw' hlock
    chain := hchain
    fits := ?_
    pushed := ?_
    copied := ?_
    taken := fun q hq => by cases htaken.symm.trans hq
    busy := fun hb => absurd hb hbusy
    copying := ?_
    asleep := ?_ }
  · have hphase : LogList.phase { s with
        list := { s.list with head := head }
        work := w
        removed := s.removed ++ s.list.head.toList } = w.phase := by
      unfold LogList.phase
      simp only [hlock]
    rw [hphase]
    exact hfits
  · show s.pushed = s.removed ++ s.list.head.toList ++ nodes
    rw [h.pushed, hhead]
    simp
  · show s.copied = s.removed ++ s.list.head.toList ++ w.taken.toList
    rw [h.copied, hw, hhead, htaken]
    simp
  · rintro ptr rfl
    exact absurd hw' id
  · rintro rfl
    exact absurd hw' id

/-- The first node is unlinked, the node that has been copied. -/
theorem Inv.unlink (h : Inv s nodes) {p : A} (hw : s.work = .unlinking p) :
    ∃ l w nodes', s.unlink = some (l, w) ∧ Inv { s with
      list := l
      work := w
      removed := s.removed ++ s.list.head.toList } nodes' := by
  have hcrit : s.work.critical := by rw [hw]; trivial
  have hhead := h.taken p (by rw [hw]; rfl)
  have hfits := h.fits
  rw [h.phase_of_work hcrit, hw] at hfits
  obtain ⟨htail, hsize⟩ := hfits
  cases nodes with
  | nil =>
    rw [show s.list.head = none from h.chain] at hhead
    cases hhead
  | cons q rest =>
    obtain rfl : q = p := Option.some.inj ((chain_head h.chain).symm.trans hhead)
    have hq : q ∈ s.pushed := by
      rw [h.pushed]
      exact List.mem_append_right _ (List.mem_cons_self ..)
    obtain ⟨n, hn⟩ := Option.isSome_iff_exists.mp (h.alloc q hq)
    have hrest : Chain s.list.next n.next rest := by
      have := chain_tail h.chain
      rwa [LogThread.next, hn] at this
    rw [List.length_cons] at hsize
    by_cases hzero : s.list.size = 0
    · obtain rfl : rest = [] := List.length_eq_zero_iff.mp (by omega)
      have hl : s.unlink = some ({ s.list with head := none }, .clearingTail) := if_pos hzero
      exact ⟨_, _, [], hl, h.unlinked (w := .clearingTail) hw trivial rfl rfl ⟨rfl, hzero⟩ id⟩
    · have hl : s.unlink = some ({ s.list with head := n.next }, .releasing) := by
        unfold LogList.unlink
        rw [if_neg hzero, hhead]
        simp only [hn, Option.map_some]
      have hne : rest ≠ [] := by
        rintro rfl
        exact hzero (by simpa using hsize)
      have hlast : s.list.tail = rest.getLast? := by
        obtain ⟨b, rest', rfl⟩ := List.exists_cons_of_ne_nil hne
        rw [htail, List.getLast?_cons_cons]
      exact ⟨_, _, rest, hl, h.unlinked (w := .releasing) hw trivial rfl hrest
        ⟨hlast, by simp only; omega⟩ id⟩

/-- With `size` at zero and the list settled, there are no nodes. -/
theorem Inv.empty_iff (h : Inv s nodes) (hphase : s.phase = .settled) :
    s.list.size = 0 ↔ nodes = [] := by
  have hfits := h.fits
  rw [hphase] at hfits
  obtain ⟨-, hsize⟩ := hfits
  constructor
  · intro hzero
    exact List.length_eq_zero_iff.mp (by omega)
  · rintro rfl
    exact hsize

/-- **One step of `log_work`.** -/
theorem inv_work (h : Inv s nodes) (hs : s.workStep = some s') : ∃ nodes', Inv s' nodes' := by
  unfold LogList.workStep at hs
  cases hw : s.work with
  | locking | waking =>
    rw [hw] at hs
    simp only at hs
    split at hs
    · rename_i hlock
      obtain rfl := Option.some.inj hs
      exact ⟨nodes, h.workLock hlock trivial (by rw [hw]; rfl) rfl id⟩
    · cases hs
  | testing =>
    rw [hw] at hs
    have hcrit : s.work.critical := by rw [hw]; trivial
    have hphase : s.phase = .settled := by rw [h.phase_of_work hcrit, hw]; rfl
    have htaken : s.work.taken = none := by rw [hw]; rfl
    simp only at hs
    split at hs
    · rename_i hzero
      obtain rfl := Option.some.inj hs
      refine ⟨nodes, h.workUnlock hcrit (by rw [hw]; rfl) htaken id rfl nofun nofun ?_⟩
      exact fun _ => (h.empty_iff hphase).mp hzero
    · rename_i hpos
      obtain rfl := Option.some.inj hs
      have hfits := h.fits
      rw [hphase] at hfits
      exact ⟨nodes, h.workSection (w := .unlocking) hcrit trivial htaken.symm rfl rfl hfits
        fun _ he => hpos ((h.empty_iff hphase).mpr he)⟩
  | waiting =>
    rw [hw] at hs
    cases hs
  | unlocking =>
    rw [hw] at hs
    obtain rfl := Option.some.inj hs
    exact ⟨nodes, h.workUnlock (by rw [hw]; trivial) (by rw [hw]; rfl) (by rw [hw]; rfl) id rfl
      (fun _ => h.busy (by rw [hw]; trivial)) nofun nofun⟩
  | checking =>
    rw [hw] at hs
    obtain rfl := Option.some.inj hs
    have hbusy := h.busy (by rw [hw]; trivial)
    split
    · exact ⟨nodes, h.roam (by rw [hw]; exact id) (by rw [hw]; rfl) id rfl (fun _ => hbusy) nofun
        nofun⟩
    · exact ⟨nodes, h.roam (by rw [hw]; exact id) (by rw [hw]; rfl) id rfl nofun nofun nofun⟩
  | reading =>
    rw [hw] at hs
    obtain rfl := Option.some.inj hs
    refine ⟨nodes, h.roam (by rw [hw]; exact id) (by rw [hw]; rfl) id rfl
      (fun _ => h.busy (by rw [hw]; trivial)) ?_ nofun⟩
    rintro ptr ⟨⟩
    rfl
  | copying ptr =>
    obtain ⟨a, n, rfl, hn, hinv⟩ := h.copy hw
    rw [hw] at hs
    simp only [hn, Option.map_some, Option.some.injEq] at hs
    obtain rfl := hs
    exact ⟨nodes, hinv⟩
  | relocking ptr =>
    rw [hw] at hs
    simp only at hs
    split at hs
    · rename_i hlock
      obtain rfl := Option.some.inj hs
      exact ⟨nodes, h.workLock hlock trivial (by rw [hw]; rfl) rfl id⟩
    · cases hs
  | counting ptr =>
    rw [hw] at hs
    obtain rfl := Option.some.inj hs
    have hcrit : s.work.critical := by rw [hw]; trivial
    have hfits := h.fits
    rw [h.phase_of_work hcrit, hw] at hfits
    obtain ⟨htail, hsize⟩ := hfits
    exact ⟨nodes, h.workSection (w := .unlinking ptr) hcrit trivial (by rw [hw]; rfl) rfl rfl
      ⟨htail, by simp only; omega⟩ nofun⟩
  | unlinking ptr =>
    obtain ⟨l, w, nodes', hl, hinv⟩ := h.unlink hw
    rw [hw] at hs
    simp only [hl, Option.map_some, Option.some.injEq] at hs
    obtain rfl := hs
    exact ⟨nodes', hinv⟩
  | clearingTail =>
    rw [hw] at hs
    obtain rfl := Option.some.inj hs
    have hcrit : s.work.critical := by rw [hw]; trivial
    have hfits := h.fits
    rw [h.phase_of_work hcrit, hw] at hfits
    obtain ⟨rfl, hsize⟩ := hfits
    exact ⟨[], h.workSection (w := .releasing) hcrit trivial (by rw [hw]; rfl) rfl rfl ⟨rfl, hsize⟩
      nofun⟩
  | releasing =>
    rw [hw] at hs
    obtain rfl := Option.some.inj hs
    exact ⟨nodes, h.workUnlock (by rw [hw]; trivial) (by rw [hw]; rfl) (by rw [hw]; rfl) id rfl
      nofun nofun nofun⟩

/-- **One step of any thread.** -/
theorem inv_step [DecidableEq ι] [DecidableEq A] {l : LogLabel ι A T} (h : Inv s nodes)
    (hs : s.step l = some s') :
    ∃ nodes', Inv s' nodes' := by
  cases l with
  | call i p msg =>
    unfold LogList.step at hs
    simp only at hs
    split at hs
    · rename_i hok
      obtain rfl := Option.some.inj hs
      exact ⟨nodes, h.call hok.1 (Option.isNone_iff_eq_none.mp hok.2) msg⟩
    · cases hs
  | push i => exact inv_push h hs
  | work => exact inv_work h hs
  | spurious =>
    unfold LogList.step at hs
    simp only at hs
    split at hs
    · rename_i hw
      obtain rfl := Option.some.inj hs
      exact ⟨nodes, h.wake hw⟩
    · cases hs

end

-- ---------------------------------------------------------------------------
-- The result
-- ---------------------------------------------------------------------------

/-- Nothing is lost, repeated or taken out of turn. -/
structure Intact [DecidableEq A] (s : LogList ι A T) : Prop where
  /-- between the critical sections, `size` counts the nodes from `head` to `tail` -/
  nodes : s.lock = none → ∃ nodes, Chain s.list.next s.list.head nodes ∧
    s.list.tail = nodes.getLast? ∧ s.list.size = nodes.length
  null : s.lock = none →
    (s.list.head = none ↔ s.list.size = 0) ∧ (s.list.tail = none ↔ s.list.size = 0)
  /-- at every moment -/
  head : 0 < s.list.size → s.list.head ≠ none
  /-- no null pointer is followed -/
  pointers : (∀ i p, s.pc i = .linking p → s.link p ≠ none) ∧ s.work ≠ .copying none ∧
    ∀ ptr, s.work = .unlinking ptr → s.unlink ≠ none
  /-- the node that is unlinked is the one that was copied -/
  removes : ∀ ptr, s.work = .unlinking ptr → s.list.head = some ptr
  /-- the nodes are consumed in the order in which they were linked, each once -/
  order : s.removed <+: s.copied ∧ s.copied <+: s.pushed
  once : s.pushed.Nodup
  messages : s.buf.map some = s.copied.map fun a => (s.list.node a).map MsgNode.msg
  /-- `log_work` does not sleep on a list with nodes, unless a signal is on its way -/
  asleep : s.work = .waiting → 0 < s.list.size → ∃ i, (s.pc i).announces

theorem Phase.Fits.nonempty {l : LogThread A T} {nodes : List A} {phase : Phase A}
    (h : phase.Fits l nodes) (hpos : 0 < l.size) : nodes ≠ [] := by
  rintro rfl
  cases phase with
  | settled =>
    have hsize : l.size = 0 := h.2
    omega
  | linked p => cases h.1
  | uncounted =>
    have hsize : l.size + 1 = 0 := h.2
    omega
  | cleared =>
    have hsize : l.size = 0 := h.2
    omega

theorem Inv.intact [DecidableEq ι] [DecidableEq A] {s : LogList ι A T} {nodes : List A}
    (h : Inv s nodes) : Intact s := by
  have hhead := chain_head h.chain
  have hcopied : s.copied <+: s.pushed := by
    rw [h.copied, h.pushed]
    refine (List.prefix_append_right_inj _).mpr ?_
    cases ht : s.work.taken with
    | none => exact List.nil_prefix
    | some p =>
      have hp := h.taken p ht
      rw [hhead] at hp
      obtain ⟨rest, rfl⟩ := List.head?_eq_some_iff.mp hp
      exact List.prefix_append [p] rest
  constructor
  · intro hlock
    obtain ⟨htail, hsize⟩ := h.settled hlock
    exact ⟨nodes, h.chain, htail, hsize⟩
  · intro hlock
    obtain ⟨htail, hsize⟩ := h.settled hlock
    have hzero : s.list.size = 0 ↔ nodes = [] := by
      rw [hsize, Int.natCast_eq_zero, List.length_eq_zero_iff]
    rw [hhead, htail, hzero]
    exact ⟨List.head?_eq_none_iff, List.getLast?_eq_none_iff⟩
  · intro hpos hnone
    rw [hhead, List.head?_eq_none_iff] at hnone
    exact h.fits.nonempty hpos hnone
  · refine ⟨?_, ?_, ?_⟩
    · intro i p hpc hnone
      obtain ⟨l, hl, -⟩ := h.link hpc
      rw [hnone] at hl
      cases hl
    · intro hw
      obtain ⟨a, n, ha, -⟩ := h.copy hw
      cases ha
    · intro ptr hw hnone
      obtain ⟨l, w, nodes', hl, -⟩ := h.unlink hw
      rw [hnone] at hl
      cases hl
  · intro ptr hw
    exact h.taken ptr (by rw [hw]; rfl)
  · refine ⟨?_, hcopied⟩
    rw [h.copied]
    exact List.prefix_append _ _
  · exact h.nodup
  · exact h.buf
  · intro hw hpos
    exact (h.asleep hw).resolve_left (h.fits.nonempty hpos)

/-- **The log list**, in every state of every run. -/
theorem log_list_intact [DecidableEq ι] [DecidableEq A] {s : LogList ι A T}
    (h : Reachable LogInitial LogList.step (fun _ _ => True) s) : Intact s := by
  have hinv : ∃ nodes, Inv s nodes := by
    refine h.invariant (P := fun s => ∃ nodes, Inv s nodes) (fun s hs => ⟨[], inv_initial hs⟩) ?_
    rintro s l s' ⟨nodes, hs⟩ - hstep
    exact inv_step hs hstep
  obtain ⟨nodes, hinv⟩ := hinv
  exact hinv.intact

/-- A log with no node, and threads and addresses that are numbers. -/
def emptyLog : LogList Nat Nat Nat where
  list := ⟨fun _ => none, none, none, 0⟩
  lock := none
  pc := fun _ => .outside
  work := .locking
  buf := []
  copied := []
  pushed := []
  removed := []

/-- Two calls of `push_log`, with `log_work` between their assignments. -/
def twoCalls : List (LogLabel Nat Nat Nat) :=
  [.call 0 7 5, .call 1 8 6, .push 0, .push 0, .push 0, .push 0, .push 0, .work, .push 0, .work,
    .work, .push 1, .work, .push 1, .work, .push 1, .work, .push 1, .push 1, .work, .push 1] ++
  List.replicate 16 .work

/-- Both messages are pushed, copied and removed. -/
theorem log_list_intact_two : ∃ s, runSteps LogList.step emptyLog twoCalls = some s ∧
    s.buf = [5, 6] ∧ s.removed = [7, 8] ∧ Intact s := by
  have hrun : (runSteps LogList.step emptyLog twoCalls).any
      (fun s => decide (s.buf = [5, 6] ∧ s.removed = [7, 8])) = true := by decide +kernel
  obtain ⟨s, hs, hbuf⟩ := (Option.any_eq_true _ _).mp hrun
  obtain ⟨hbuf, hremoved⟩ := of_decide_eq_true hbuf
  refine ⟨s, hs, hbuf, hremoved, log_list_intact (.of_run (fun _ _ _ => trivial) (.init ?_) hs)⟩
  exact ⟨rfl, rfl, fun _ => rfl, rfl, ⟨rfl, rfl⟩, rfl, rfl⟩

end TinyHTTP.Version02
