import Mathlib.Data.List.Perm.Subperm
import TinyHTTP.Timer.LstTimer

/-!
# TinyHTTP — what the timer list represents

`Linked l xs` says that `l` is a well-formed `sort_timer_lst` whose nodes, from
`head` to `tail`, are `xs`. Each operation has one lemma that says what it does
to `xs`: no pointer appears in any later proof.

* `addTimer_spec` — the timer is put before the first timer of a greater expiry.
* `adjustTimer_spec` — the timer moves right by the same rule, past the timers
  that no longer expire after it.
* `delTimer_spec` — the timer is taken out.
* `tick_spec` — the leading timers that are due are called and taken out.

None of the four needs the list to be sorted; sortedness is a fact about `xs`
alone, and `SortedByKey` is kept because of what the lemmas say.
-/

namespace TinyHTTP.Timer

open TinyHTTP.Lib

namespace SortTimerLst

variable {α : Type}

def nextOf (l : SortTimerLst α) (a : Addr) : Option Addr := (l.node a).next
def prevOf (l : SortTimerLst α) (a : Addr) : Option Addr := (l.node a).prev
def expireOf (l : SortTimerLst α) (a : Addr) : Int := (l.node a).expire

/-- `l` is a well-formed list of exactly the nodes `xs`, in this order. -/
structure Linked (l : SortTimerLst α) (xs : List Addr) : Prop where
  nodup : xs.Nodup
  live : ∀ a ∈ xs, a ∈ l.live
  head : l.head = xs.head?
  tail : xs ≠ [] → l.tail = xs.getLast?
  seg : Seg l.nextOf l.prevOf none xs none

/-- The two memories agree on what the timers are for; only links may differ. -/
def SameData (l l' : SortTimerLst α) : Prop :=
  ∀ a, (l'.node a).expire = (l.node a).expire ∧ (l'.node a).userData = (l.node a).userData

theorem SameData.refl (l : SortTimerLst α) : SameData l l := fun _ => ⟨rfl, rfl⟩

theorem SameData.trans {l l' l'' : SortTimerLst α} (h : SameData l l') (h' : SameData l' l'') :
    SameData l l'' := fun a => ⟨(h' a).1.trans (h a).1, (h' a).2.trans (h a).2⟩

theorem SameData.expireOf {l l' : SortTimerLst α} (h : SameData l l') : l'.expireOf = l.expireOf :=
  funext fun a => (h a).1

theorem withNext_sameData (l : SortTimerLst α) (a : Addr) (v : Option Addr) :
    SameData l (l.withNext a v) := by
  intro b
  by_cases h : b = a
  · subst h
    simp [withNext]
  · simp [withNext, h]

theorem withPrev_sameData (l : SortTimerLst α) (a : Addr) (v : Option Addr) :
    SameData l (l.withPrev a v) := by
  intro b
  by_cases h : b = a
  · subst h
    simp [withPrev]
  · simp [withPrev, h]

/-- Every linked node is live, so the number of live nodes bounds any walk over the list. -/
theorem Linked.length_le {l : SortTimerLst α} {xs : List Addr} (h : Linked l xs) :
    xs.length ≤ l.live.length :=
  (h.nodup.subperm h.live).length_le

/-- A list whose nodes keep their links, under the same `head` and `tail`. -/
theorem Linked.of_links {l l' : SortTimerLst α} {xs : List Addr} (h : Linked l xs)
    (hlive : ∀ a ∈ xs, a ∈ l'.live) (hhead : l'.head = l.head) (htail : l'.tail = l.tail)
    (hn : ∀ a ∈ xs, l'.nextOf a = l.nextOf a) (hp : ∀ a ∈ xs, l'.prevOf a = l.prevOf a) :
    Linked l' xs where
  nodup := h.nodup
  live := hlive
  head := hhead.trans h.head
  tail := fun hne => htail.trans (h.tail hne)
  seg := seg_congr hn hp h.seg

-- ---------------------------------------------------------------------------
-- The search loop of the private add_timer
-- ---------------------------------------------------------------------------

/-- The search reached the end: the timer becomes the new tail. -/
theorem addTimerLoop_end {l : SortTimerLst α} {pre : List Addr} {prev timer : Addr} {fuel : Nat}
    (h : Linked l (pre ++ [prev])) (hlive : timer ∈ l.live) (hnew : timer ∉ pre ++ [prev]) :
    ∃ l', addTimerLoop l timer fuel prev none = some l' ∧
      Linked l' (pre ++ [prev, timer]) ∧ SameData l l' ∧ l'.live = l.live := by
  have hprev : prev ∈ l.live := h.live prev (by simp)
  have hne : prev ≠ timer := by
    rintro rfl
    exact hnew (by simp)
  refine ⟨{ ((l.withNext prev (some timer)).withPrev timer (some prev)).withNext timer none with
    tail := some timer }, ?_, ?_, ?_, rfl⟩
  · cases fuel <;> simp [addTimerLoop, setNext, setPrev, hprev, hlive]
  · constructor
    · have := h.nodup
      rw [show pre ++ [prev, timer] = (pre ++ [prev]) ++ [timer] by simp, List.nodup_append]
      refine ⟨this, by simp, ?_⟩
      intro a ha b hb
      rintro rfl
      exact hnew ((List.mem_singleton.mp hb) ▸ ha)
    · intro a ha
      have : a ∈ pre ++ [prev] ∨ a = timer := by simpa [or_assoc] using ha
      rcases this with ha | rfl
      · exact h.live a ha
      · exact hlive
    · show l.head = _
      rw [h.head]
      cases pre <;> simp
    · intro _
      show some timer = _
      simp
    · refine seg_insert_after h.nodup ?_ ?_ ?_ ?_ ?_ ?_ h.seg
      · simp [nextOf, hne]
      · simp [nextOf]
      · intro b hb hbp
        have hbt : b ≠ timer := fun e => hnew (e ▸ hb)
        simp [nextOf, hbp, hbt]
      · simp [prevOf]
      · simp
      · intro b hb _
        have hbt : b ≠ timer := fun e => hnew (e ▸ hb)
        simp [prevOf, hbt]
  · exact ((withNext_sameData _ _ _).trans (withPrev_sameData _ _ _)).trans
      (withNext_sameData _ _ _)

/-- The search stopped at `tmp`: the timer goes between `prev` and `tmp`. -/
theorem addTimerLoop_stop {l : SortTimerLst α} {pre suf : List Addr} {prev tmp timer : Addr}
    {fuel : Nat} (h : Linked l (pre ++ prev :: tmp :: suf)) (hlive : timer ∈ l.live)
    (hnew : timer ∉ pre ++ prev :: tmp :: suf) (hlt : l.expireOf timer < l.expireOf tmp) :
    ∃ l', addTimerLoop l timer (fuel + 1) prev (some tmp) = some l' ∧
      Linked l' (pre ++ prev :: timer :: tmp :: suf) ∧ SameData l l' ∧ l'.live = l.live := by
  have hprev : prev ∈ l.live := h.live prev (by simp)
  have htmp : tmp ∈ l.live := h.live tmp (by simp)
  have hpt : prev ≠ timer := by
    rintro rfl
    exact hnew (by simp)
  have htt : tmp ≠ timer := by
    rintro rfl
    exact hnew (by simp)
  have hnd := h.nodup
  refine ⟨(((l.withNext prev (some timer)).withNext timer (some tmp)).withPrev tmp
    (some timer)).withPrev timer (some prev), ?_, ?_, ?_, rfl⟩
  · have hlt' : (l.node timer).expire < (l.node tmp).expire := hlt
    simp [addTimerLoop, deref, setNext, setPrev, hprev, htmp, hlive, hlt']
  · constructor
    · -- the new node is fresh, so the longer list has no duplicates either
      have hperm :
          (pre ++ prev :: timer :: tmp :: suf).Perm (timer :: (pre ++ prev :: tmp :: suf)) := by
        have : ((pre ++ [prev]) ++ timer :: tmp :: suf).Perm
            (timer :: ((pre ++ [prev]) ++ tmp :: suf)) := List.perm_middle
        simpa using this
      rw [hperm.nodup_iff]
      exact List.nodup_cons.mpr ⟨hnew, hnd⟩
    · intro a ha
      have : a = timer ∨ a ∈ pre ++ prev :: tmp :: suf := by
        simp only [List.mem_append, List.mem_cons] at ha ⊢
        tauto
      rcases this with rfl | ha
      · exact hlive
      · exact h.live a ha
    · show l.head = _
      rw [h.head]
      cases pre <;> simp
    · intro _
      show l.tail = _
      rw [h.tail (by simp)]
      simp [List.getLast?_append, List.getLast?_cons_cons]
    · refine seg_insert_after hnd ?_ ?_ ?_ ?_ ?_ ?_ h.seg
      · simp [nextOf, hpt]
      · simp [nextOf]
      · intro b hb hbp
        have hbt : b ≠ timer := fun e => hnew (e ▸ hb)
        simp [nextOf, hbp, hbt]
      · simp [prevOf]
      · intro y hy
        obtain rfl : tmp = y := by simpa using hy
        simp [prevOf, htt]
      · intro b hb hbh
        have hbt : b ≠ timer := fun e => hnew (e ▸ hb)
        have hbm : b ≠ tmp := fun e => hbh (by simp [e])
        simp [prevOf, hbt, hbm]
  · exact (((withNext_sameData _ _ _).trans (withNext_sameData _ _ _)).trans
      (withPrev_sameData _ _ _)).trans (withPrev_sameData _ _ _)

/-- The search of the private `add_timer` from `prev`, where `suf` follows `prev`: the timer
ends up before the first node of `suf` that expires later. -/
theorem addTimerLoop_spec {timer : Addr} :
    ∀ (suf : List Addr) {fuel : Nat} {l : SortTimerLst α} {pre : List Addr} {prev : Addr},
      suf.length ≤ fuel → Linked l (pre ++ prev :: suf) → timer ∈ l.live →
      timer ∉ pre ++ prev :: suf →
      ∃ l', addTimerLoop l timer fuel prev suf.head? = some l' ∧
        Linked l' (pre ++ prev :: insertByKey l.expireOf timer suf) ∧ SameData l l' ∧
        l'.live = l.live := by
  intro suf
  induction suf with
  | nil =>
    intro fuel l pre prev _ h hlive hnew
    exact addTimerLoop_end h hlive hnew
  | cons tmp suf ih =>
    intro fuel l pre prev hfuel h hlive hnew
    obtain ⟨fuel, rfl⟩ : ∃ n, fuel = n + 1 := ⟨fuel - 1, by simp at hfuel; omega⟩
    by_cases hlt : l.expireOf timer < l.expireOf tmp
    · rw [insertByKey, List.orderedInsert_cons, if_pos hlt]
      exact addTimerLoop_stop h hlive hnew hlt
    · -- one more node is passed: `prev = tmp; tmp = tmp->next`
      have hstep : addTimerLoop l timer (fuel + 1) prev (some tmp) =
          addTimerLoop l timer fuel tmp suf.head? := by
        have htmp : tmp ∈ l.live := h.live tmp (by simp)
        have hnext : (l.node tmp).next = suf.head? := by
          have hs := (seg_append.mp h.seg).2
          have : l.nextOf tmp = suf.head?.or none := hs.2.2.2.1
          simpa [nextOf] using this
        have hge : ¬ (l.node timer).expire < (l.node tmp).expire := hlt
        simp [addTimerLoop, deref, htmp, hlive, hge, hnext]
      rw [insertByKey, List.orderedInsert_cons, if_neg hlt, List.head?_cons, hstep]
      have hre : pre ++ prev :: tmp :: suf = (pre ++ [prev]) ++ tmp :: suf := by simp
      rw [hre] at h hnew
      obtain ⟨l', hl', hlk, hsd, hlv⟩ := ih (by simpa using hfuel) h hlive hnew
      exact ⟨l', hl', by simpa using hlk, hsd, hlv⟩

/-- The private `add_timer(timer, lst_head)`, where `lst_head` and `suf` end the list. -/
theorem addTimerFrom_spec {l : SortTimerLst α} {pre suf : List Addr} {lstHead timer : Addr}
    (h : Linked l (pre ++ lstHead :: suf)) (hlive : timer ∈ l.live)
    (hnew : timer ∉ pre ++ lstHead :: suf) :
    ∃ l', l.addTimerFrom timer lstHead = some l' ∧
      Linked l' (pre ++ lstHead :: insertByKey l.expireOf timer suf) ∧ SameData l l' ∧
      l'.live = l.live := by
  have hhead : lstHead ∈ l.live := h.live lstHead (by simp)
  have hnext : (l.node lstHead).next = suf.head? := by
    have : l.nextOf lstHead = suf.head?.or none := (seg_append.mp h.seg).2.2.1
    simpa [nextOf] using this
  have hfuel : suf.length ≤ l.live.length := by
    have := h.length_le
    simp at this
    omega
  obtain ⟨l', hl', hlk, hsd, hlv⟩ := addTimerLoop_spec suf hfuel h hlive hnew
  refine ⟨l', ?_, hlk, hsd, hlv⟩
  rw [addTimerFrom, deref_live hhead]
  show addTimerLoop l timer l.live.length lstHead (l.node lstHead).next = some l'
  rw [hnext]
  exact hl'

-- ---------------------------------------------------------------------------
-- add_timer
-- ---------------------------------------------------------------------------

/-- `add_timer` of a live node that is not linked: its `next` has to be null where it becomes the
only node, its `prev` where it becomes the head. -/
theorem addTimer_relinked {l : SortTimerLst α} {xs : List Addr} {timer : Addr} (h : Linked l xs)
    (hlive : timer ∈ l.live) (hnew : timer ∉ xs) (hnext : xs = [] → (l.node timer).next = none)
    (hprev : (∀ head ∈ xs.head?, l.expireOf timer < l.expireOf head) →
      (l.node timer).prev = none) :
    ∃ l', l.addTimer (some timer) = some l' ∧ Linked l' (insertByKey l.expireOf timer xs) ∧
      SameData l l' ∧ l'.live = l.live := by
  cases xs with
  | nil =>
    have hhead : l.head = none := h.head
    refine ⟨{ l with head := some timer, tail := some timer }, ?_, ?_, SameData.refl l, rfl⟩
    · simp [addTimer, hhead]
    · have hnext' : (l.node timer).next = none := hnext rfl
      exact ⟨by simp, by simpa using hlive, rfl, fun _ => rfl, hprev (by simp),
        by simpa [nextOf] using hnext', trivial⟩
  | cons head rest =>
    have hhead : l.head = some head := h.head
    have hhl : head ∈ l.live := h.live head (by simp)
    by_cases hlt : l.expireOf timer < l.expireOf head
    · have hth : timer ≠ head := by
        rintro rfl
        exact hnew (by simp)
      refine ⟨{ (l.withNext timer (some head)).withPrev head (some timer) with
        head := some timer }, ?_, ?_, ?_, rfl⟩
      · have hlt' : (l.node timer).expire < (l.node head).expire := hlt
        simp [addTimer, hhead, deref, hlive, hhl, hlt', setNext, setPrev]
      · rw [insertByKey, List.orderedInsert_cons, if_pos hlt]
        constructor
        · exact List.nodup_cons.mpr ⟨hnew, h.nodup⟩
        · intro a ha
          rcases List.mem_cons.mp ha with rfl | ha
          · exact hlive
          · exact h.live a ha
        · rfl
        · intro _
          show l.tail = _
          rw [h.tail (by simp), List.getLast?_cons_cons]
        · -- the old list, entered from the new node
          refine ⟨?_, ?_, ?_⟩
          · show (((l.withNext timer (some head)).withPrev head (some timer)).node timer).prev =
              none
            simp [hth, hprev (by simpa using hlt)]
          · show (((l.withNext timer (some head)).withPrev head (some timer)).node timer).next = _
            simp
          · refine seg_reenter h.nodup ?_ ?_ ?_ h.seg
            · intro a ha
              have hat : a ≠ timer := fun e => hnew (e ▸ ha)
              simp [nextOf, hat]
            · intro a _ hah
              have : a ≠ head := fun e => hah (by simp [e])
              simp [prevOf, this]
            · intro a ha
              obtain rfl : head = a := by simpa using ha
              simp [prevOf]
      · exact (withNext_sameData _ _ _).trans (withPrev_sameData _ _ _)
    · have hge : ¬ (l.node timer).expire < (l.node head).expire := hlt
      have hfrom : l.addTimer (some timer) = l.addTimerFrom timer head := by
        simp [addTimer, hhead, deref, hlive, hhl, hge]
      rw [hfrom, insertByKey, List.orderedInsert_cons, if_neg hlt]
      have h' : Linked l ([] ++ head :: rest) := h
      exact addTimerFrom_spec h' hlive hnew

/-- `add_timer` of a live node that is not linked yet and whose links are null. -/
theorem addTimer_spec {l : SortTimerLst α} {xs : List Addr} {timer : Addr} (h : Linked l xs)
    (hlive : timer ∈ l.live) (hnew : timer ∉ xs)
    (hnext : (l.node timer).next = none) (hprev : (l.node timer).prev = none) :
    ∃ l', l.addTimer (some timer) = some l' ∧ Linked l' (insertByKey l.expireOf timer xs) ∧
      SameData l l' ∧ l'.live = l.live :=
  addTimer_relinked h hlive hnew (fun _ => hnext) (fun _ => hprev)

-- ---------------------------------------------------------------------------
-- Where a linked node stands
-- ---------------------------------------------------------------------------

/-- The node after a linked one. -/
theorem Linked.next_eq {l : SortTimerLst α} {pre post : List Addr} {a : Addr}
    (h : Linked l (pre ++ a :: post)) : (l.node a).next = post.head? := by
  have : l.nextOf a = post.head?.or none := (seg_append.mp h.seg).2.2.1
  simpa [nextOf] using this

/-- The node before a linked one. -/
theorem Linked.prev_eq {l : SortTimerLst α} {pre post : List Addr} {a : Addr}
    (h : Linked l (pre ++ a :: post)) : (l.node a).prev = pre.getLast? := by
  have : l.prevOf a = pre.getLast?.or none := (seg_append.mp h.seg).2.1
  simpa [prevOf] using this

/-- A linked node is the head exactly when nothing stands before it. -/
theorem Linked.eq_head_iff {l : SortTimerLst α} {pre post : List Addr} {a : Addr}
    (h : Linked l (pre ++ a :: post)) : some a = l.head ↔ pre = [] := by
  rw [h.head]
  cases pre with
  | nil => simp
  | cons p ps =>
    have hnd := h.nodup
    have hpa : p ≠ a := by
      rintro rfl
      simp at hnd
    simp [hpa.symm]

/-- A linked node is the tail exactly when nothing stands after it. -/
theorem Linked.eq_tail_iff {l : SortTimerLst α} {pre post : List Addr} {a : Addr}
    (h : Linked l (pre ++ a :: post)) : some a = l.tail ↔ post = [] := by
  rw [h.tail (by simp)]
  rcases List.eq_nil_or_concat post with rfl | ⟨ys, y, rfl⟩
  · simp
  · have hnd := (List.nodup_append.mp h.nodup).2.1
    have hya : a ≠ y := by
      rintro rfl
      simp at hnd
    simp [List.getLast?_append, List.getLast?_cons, hya]

-- ---------------------------------------------------------------------------
-- Unlinking
-- ---------------------------------------------------------------------------

/-- What remains of a list when one node is bypassed, given the links around it. -/
theorem Linked.bypass {l l' : SortTimerLst α} {pre post : List Addr} {a : Addr}
    (h : Linked l (pre ++ a :: post)) (hlive : ∀ b ∈ pre ++ post, b ∈ l'.live)
    (hhead : l'.head = (pre ++ post).head?)
    (htail : pre ++ post ≠ [] → l'.tail = (pre ++ post).getLast?)
    (hnx : ∀ b ∈ pre.getLast?, l'.nextOf b = post.head?)
    (hn : ∀ b ∈ pre ++ post, b ∉ pre.getLast? → l'.nextOf b = l.nextOf b)
    (hpy : ∀ y ∈ post.head?, l'.prevOf y = pre.getLast?)
    (hp : ∀ b ∈ pre ++ post, b ∉ post.head? → l'.prevOf b = l.prevOf b) :
    Linked l' (pre ++ post) where
  nodup := (List.nodup_cons.mp ((List.perm_middle.nodup_iff).mp h.nodup)).2
  live := hlive
  head := hhead
  tail := htail
  seg := seg_remove h.nodup (fun b hb => by simpa using hnx b hb) hn
    (fun y hy => by simpa using hpy y hy) hp h.seg

/-- Membership in what remains around a bypassed node. -/
theorem Linked.ne_of_mem {l : SortTimerLst α} {pre post : List Addr} {a b : Addr}
    (h : Linked l (pre ++ a :: post)) (hb : b ∈ pre ++ post) : b ≠ a := by
  have := (List.nodup_cons.mp ((List.perm_middle.nodup_iff).mp h.nodup)).1
  rintro rfl
  exact this hb

/-- The head is bypassed: `head = head->next; head->prev = NULL`. -/
theorem Linked.bypass_head {l : SortTimerLst α} {a b : Addr} {post : List Addr}
    (h : Linked l (a :: b :: post)) :
    Linked ({ l with head := some b }.withPrev b none) (b :: post) := by
  have h' : Linked l ([] ++ a :: b :: post) := h
  refine Linked.bypass h' ?_ rfl ?_ (by simp) ?_ ?_ ?_
  · intro c hc
    exact h.live c (List.mem_cons_of_mem _ hc)
  · intro _
    show l.tail = _
    rw [h.tail (by simp), List.getLast?_cons_cons]
    rfl
  · intro c _ _
    simp [nextOf]
  · intro y hy
    obtain rfl : b = y := by simpa using hy
    simp [prevOf]
  · intro c _ hc
    have : c ≠ b := fun e => hc (by simp [e])
    simp [prevOf, this]

/-- An inner node is bypassed: `timer->prev->next = timer->next`, then
`timer->next->prev = timer->prev`. -/
theorem Linked.bypass_inner {l : SortTimerLst α} {pre post : List Addr} {p a b : Addr}
    (h : Linked l ((pre ++ [p]) ++ a :: b :: post)) :
    Linked ((l.withNext p (some b)).withPrev b (some p)) ((pre ++ [p]) ++ b :: post) := by
  have hpb : p ∉ b :: post := by
    intro hp
    have := (List.nodup_append.mp h.nodup).2.2 p (by simp) p (List.mem_cons_of_mem _ hp)
    exact this rfl
  refine Linked.bypass h ?_ ?_ ?_ ?_ ?_ ?_ ?_
  · intro c hc
    refine h.live c ?_
    simp only [List.mem_append, List.mem_cons] at hc ⊢
    tauto
  · show l.head = _
    rw [h.head]
    cases pre <;> simp
  · intro _
    show l.tail = _
    rw [h.tail (by simp)]
    simp [List.getLast?_append, List.getLast?_cons_cons]
  · intro c hc
    obtain rfl : p = c := by simpa using hc
    simp [nextOf]
  · intro c _ hc
    have : c ≠ p := fun e => hc (by simp [e])
    simp [nextOf, this]
  · intro y hy
    obtain rfl : b = y := by simpa using hy
    simp [prevOf]
  · intro c _ hc
    have : c ≠ b := fun e => hc (by simp [e])
    simp [prevOf, this]

-- ---------------------------------------------------------------------------
-- adjust_timer
-- ---------------------------------------------------------------------------

/-- `adjust_timer` of a linked timer: it moves right, past the nodes of `post` that do not
expire later, and the order of the others is untouched. -/
theorem adjustTimer_spec {l : SortTimerLst α} {pre post : List Addr} {timer : Addr}
    (h : Linked l (pre ++ timer :: post)) :
    ∃ l', l.adjustTimer (some timer) = some l' ∧
      Linked l' (pre ++ insertByKey l.expireOf timer post) ∧ SameData l l' ∧
      l'.live = l.live := by
  have hlive : timer ∈ l.live := h.live timer (by simp)
  have hnext := h.next_eq
  cases post with
  | nil =>
    refine ⟨l, ?_, by simpa using h, SameData.refl l, rfl⟩
    have : (l.node timer).next = none := hnext
    simp [adjustTimer, deref, hlive, this]
  | cons tmp suf =>
    have htmp : tmp ∈ l.live := h.live tmp (by simp)
    have hnext' : (l.node timer).next = some tmp := hnext
    by_cases hlt : l.expireOf timer < l.expireOf tmp
    · have hlt' : (l.node timer).expire < (l.node tmp).expire := hlt
      refine ⟨l, by simp [adjustTimer, deref, hlive, htmp, hnext', hlt'], ?_, SameData.refl l, rfl⟩
      rw [insertByKey, List.orderedInsert_cons, if_pos hlt]
      exact h
    · have hge : ¬ (l.node timer).expire < (l.node tmp).expire := hlt
      rw [insertByKey, List.orderedInsert_cons, if_neg hlt]
      rcases List.eq_nil_or_concat pre with rfl | ⟨ps, p, rfl⟩
      · -- `timer == head`: the search starts from the new head
        have hhead : some timer = l.head := h.eq_head_iff.mpr rfl
        have hnt : timer ∉ tmp :: suf := (List.nodup_cons.mp h.nodup).1
        have hby := Linked.bypass_head h
        have hlk : Linked (({ l with head := some tmp }.withPrev tmp none).withNext timer none)
            ([] ++ tmp :: suf) := by
          refine hby.of_links hby.live rfl rfl ?_ ?_
          · intro a ha
            have : a ≠ timer := fun e => hnt (e ▸ ha)
            simp [nextOf, this]
          · intro a _
            simp [prevOf]
        obtain ⟨l', hl', hlk', hsd, hlv⟩ := addTimerFrom_spec hlk hlive hnt
        have hsd1 :
            SameData l (({ l with head := some tmp }.withPrev tmp none).withNext timer none) :=
          ((withPrev_sameData _ _ _).trans (withNext_sameData _ _ _) :
            SameData { l with head := some tmp } _)
        refine ⟨l', ?_, ?_, hsd1.trans hsd, hlv⟩
        · rw [← hl']
          simp [adjustTimer, deref, hlive, htmp, hnext', hge, ← hhead, setNext, setPrev]
        · rw [hsd1.expireOf] at hlk'
          exact hlk'
      · -- the timer is unlinked from the middle; the search starts from its follower
        rw [List.concat_eq_append] at *
        have hhead : ¬ some timer = l.head := by
          rw [h.eq_head_iff]
          simp
        have hprev : (l.node timer).prev = some p := by
          rw [h.prev_eq]
          simp
        have hpl : p ∈ l.live := h.live p (by simp)
        have hnt : timer ∉ (ps ++ [p]) ++ tmp :: suf := fun hm => h.ne_of_mem hm rfl
        have hlk := Linked.bypass_inner h
        obtain ⟨l', hl', hlk', hsd, hlv⟩ := addTimerFrom_spec hlk hlive hnt
        have hsd1 : SameData l ((l.withNext p (some tmp)).withPrev tmp (some p)) :=
          (withNext_sameData _ _ _).trans (withPrev_sameData _ _ _)
        refine ⟨l', ?_, ?_, hsd1.trans hsd, hlv⟩
        · rw [← hl']
          simp [adjustTimer, deref, hlive, htmp, hnext', hge, hhead, hprev, setNext, setPrev, hpl]
        · rw [hsd1.expireOf] at hlk'
          exact hlk'

-- ---------------------------------------------------------------------------
-- del_timer
-- ---------------------------------------------------------------------------

/-- Freeing a node that is not linked. -/
theorem Linked.free {l : SortTimerLst α} {xs : List Addr} {a : Addr} (h : Linked l xs)
    (hlive : a ∈ l.live) (ha : a ∉ xs) :
    ∃ l', l.free a = some l' ∧ Linked l' xs ∧ SameData l l' ∧ l'.live = l.live.erase a := by
  refine ⟨_, free_live hlive, ?_, SameData.refl l, rfl⟩
  refine ⟨h.nodup, ?_, h.head, h.tail, h.seg⟩
  intro b hb
  have hba : b ≠ a := fun e => ha (e ▸ hb)
  exact (List.mem_erase_of_ne hba).mpr (h.live b hb)

/-- The tail is bypassed: `tail = tail->prev; tail->next = NULL`. -/
theorem Linked.bypass_tail {l : SortTimerLst α} {pre : List Addr} {p a : Addr}
    (h : Linked l ((pre ++ [p]) ++ [a])) :
    Linked ({ l with tail := some p }.withNext p none) (pre ++ [p]) := by
  have hkeep : Linked ({ l with tail := some p }.withNext p none) ((pre ++ [p]) ++ []) := by
    refine Linked.bypass h ?_ ?_ ?_ ?_ ?_ (by simp) ?_
    · intro c hc
      refine h.live c ?_
      simp only [List.append_nil] at hc
      exact List.mem_append_left _ hc
    · show l.head = _
      rw [h.head]
      cases pre <;> simp
    · intro _
      show some p = _
      simp
    · intro c hc
      obtain rfl : p = c := by simpa using hc
      simp [nextOf]
    · intro c _ hc
      have : c ≠ p := fun e => hc (by simp [e])
      simp [nextOf, this]
    · intro c _ _
      simp [prevOf]
  simpa using hkeep

/-- What `del_timer` does before its `delete`. -/
def unlinkTimer (l : SortTimerLst α) (timer : Addr) : Option (SortTimerLst α) :=
  if some timer = l.head ∧ some timer = l.tail then
    some { l with head := none, tail := none }
  else if some timer = l.head then do
    let h ← l.deref timer
    let next ← h.next
    let l := { l with head := some next }
    l.setPrev next none
  else if some timer = l.tail then do
    let t ← l.deref timer
    let prev ← t.prev
    let l := { l with tail := some prev }
    l.setNext prev none
  else do
    let t ← l.deref timer
    let prev ← t.prev
    let next ← t.next
    let l ← l.setNext prev (some next)
    l.setPrev next (some prev)

theorem delTimer_eq (l : SortTimerLst α) (timer : Addr) :
    l.delTimer (some timer) = (l.unlinkTimer timer).bind fun l => l.free timer := by
  simp only [delTimer, unlinkTimer, Option.bind_eq_bind]
  split_ifs
  · simp only [SortTimerLst.free, Option.bind_some]
    split <;> rfl
  · simp only [Option.bind_assoc]
  · simp only [Option.bind_assoc]
  · simp only [Option.bind_assoc]

/-- A linked timer is taken out. Its own links stay as they were: null at an end of the list. -/
theorem unlinkTimer_spec {l : SortTimerLst α} {pre post : List Addr} {timer : Addr}
    (h : Linked l (pre ++ timer :: post)) :
    ∃ l', l.unlinkTimer timer = some l' ∧ Linked l' (pre ++ post) ∧ SameData l l' ∧
      l'.live = l.live ∧ (pre = [] → (l'.node timer).prev = none) ∧
      (post = [] → (l'.node timer).next = none) := by
  have hlive : timer ∈ l.live := h.live timer (by simp)
  by_cases hhead : some timer = l.head
  · obtain rfl : pre = [] := h.eq_head_iff.mp hhead
    have hprev : (l.node timer).prev = none := h.prev_eq
    cases post with
    | nil =>
      -- the only node
      have htail : some timer = l.tail := h.eq_tail_iff.mpr rfl
      have hnext : (l.node timer).next = none := h.next_eq
      refine ⟨{ l with head := none, tail := none }, ?_, ?_, SameData.refl l, rfl, fun _ => hprev,
        fun _ => hnext⟩
      · simp [unlinkTimer, ← hhead, ← htail]
      · exact ⟨by simp, by simp, rfl, by simp, trivial⟩
    | cons b post =>
      have htail : ¬ some timer = l.tail := by
        rw [h.eq_tail_iff]
        simp
      have hb : b ∈ l.live := h.live b (by simp)
      have hnext : (l.node timer).next = some b := h.next_eq
      refine ⟨{ l with head := some b }.withPrev b none, ?_, Linked.bypass_head h, ?_, rfl,
        fun _ => ?_, nofun⟩
      · simp [unlinkTimer, ← hhead, htail, deref, hlive, hnext, setPrev, hb]
      · exact withPrev_sameData { l with head := some b } b none
      · simp [hprev]
  · have hpre : pre ≠ [] := fun e => hhead (h.eq_head_iff.mpr e)
    rcases List.eq_nil_or_concat pre with rfl | ⟨ps, p, rfl⟩
    · exact absurd rfl hpre
    · rw [List.concat_eq_append] at *
      have hp : p ∈ l.live := h.live p (by simp)
      have hprev : (l.node timer).prev = some p := by
        rw [h.prev_eq]
        simp
      cases post with
      | nil =>
        have htail : some timer = l.tail := h.eq_tail_iff.mpr rfl
        have hnext : (l.node timer).next = none := h.next_eq
        refine ⟨{ l with tail := some p }.withNext p none, ?_, ?_, ?_, rfl,
          fun e => absurd e hpre, fun _ => ?_⟩
        · simp [unlinkTimer, hhead, ← htail, deref, hlive, hprev, setNext, hp]
        · simpa using Linked.bypass_tail h
        · exact withNext_sameData { l with tail := some p } p none
        · simp [hnext]
      | cons b post =>
        have htail : ¬ some timer = l.tail := by
          rw [h.eq_tail_iff]
          simp
        have hb : b ∈ l.live := h.live b (by simp)
        have hnext : (l.node timer).next = some b := h.next_eq
        refine ⟨(l.withNext p (some b)).withPrev b (some p), ?_, Linked.bypass_inner h, ?_, rfl,
          fun e => absurd e hpre, nofun⟩
        · simp [unlinkTimer, hhead, htail, deref, hlive, hprev, hnext, setNext, setPrev, hp, hb]
        · exact (withNext_sameData l p (some b)).trans (withPrev_sameData _ b (some p))

/-- `del_timer` of a linked timer takes it out and frees it. -/
theorem delTimer_spec {l : SortTimerLst α} {pre post : List Addr} {timer : Addr}
    (h : Linked l (pre ++ timer :: post)) :
    ∃ l', l.delTimer (some timer) = some l' ∧ Linked l' (pre ++ post) ∧ SameData l l' ∧
      l'.live = l.live.erase timer := by
  have hlive : timer ∈ l.live := h.live timer (by simp)
  have hnt : timer ∉ pre ++ post := fun hm => h.ne_of_mem hm rfl
  obtain ⟨l₁, hl₁, hlk₁, hsd₁, hlv₁, -, -⟩ := unlinkTimer_spec h
  obtain ⟨l', hl', hlk, hsd, hlv⟩ := hlk₁.free (hlv₁ ▸ hlive) hnt
  refine ⟨l', ?_, hlk, hsd₁.trans hsd, by rw [hlv, hlv₁]⟩
  rw [delTimer_eq, hl₁, Option.bind_some, hl']

-- ---------------------------------------------------------------------------
-- tick
-- ---------------------------------------------------------------------------

/-- The call `tmp->cb_func(tmp->user_data)` for the node at `a`. -/
def callOf (l : SortTimerLst α) (a : Addr) : Addr × α := (a, (l.node a).userData)

theorem SameData.callOf {l l' : SortTimerLst α} (h : SameData l l') : l'.callOf = l.callOf :=
  funext fun a => Prod.ext rfl (h a).2

/-- One turn of `tick`: the head is called, bypassed and deleted. -/
theorem tick_turn {l : SortTimerLst α} {a : Addr} {rest : List Addr} (h : Linked l (a :: rest)) :
    ∃ l', (do
        let l ← (match rest.head? with
          | none => some { l with head := rest.head? }
          | some head => { l with head := rest.head? }.setPrev head none)
        l.free a) = some l' ∧
      Linked l' rest ∧ SameData l l' ∧ l'.live = l.live.erase a := by
  have hlive : a ∈ l.live := h.live a (by simp)
  cases rest with
  | nil =>
    refine ⟨{ l with live := l.live.erase a, head := none }, ?_, ?_, SameData.refl l, rfl⟩
    · simp [SortTimerLst.free, hlive]
    · exact ⟨by simp, by simp, rfl, by simp, trivial⟩
  | cons b post =>
    have hb : b ∈ l.live := h.live b (by simp)
    have hnt : a ∉ b :: post := (List.nodup_cons.mp h.nodup).1
    obtain ⟨l', hl', hlk, hsd, hlv⟩ := (Linked.bypass_head h).free hlive hnt
    refine ⟨l', ?_, hlk, ?_, hlv⟩
    · rw [← hl']
      simp [setPrev, hb]
    · exact (withPrev_sameData { l with head := some b } b none).trans hsd

/-- The loop of `tick`: the leading timers with `expire <= cur` are called in list order and
deleted, and the loop stops at the first one that is not due. -/
theorem tickLoop_spec (cur : Int) :
    ∀ (xs : List Addr) {fuel : Nat} {l : SortTimerLst α} (calls : List (Addr × α)),
      xs.length ≤ fuel → Linked l xs →
      ∃ l', tickLoop cur fuel l calls xs.head? =
          some (calls ++ (xs.takeWhile fun a => l.expireOf a ≤ cur).map l.callOf, l') ∧
        Linked l' (xs.dropWhile fun a => l.expireOf a ≤ cur) ∧ SameData l l' ∧
        l'.live = l.live.diff (xs.takeWhile fun a => l.expireOf a ≤ cur) := by
  intro xs
  induction xs with
  | nil =>
    intro fuel l calls _ h
    refine ⟨l, ?_, by simpa using h, SameData.refl l, by simp⟩
    cases fuel <;> simp [tickLoop]
  | cons a rest ih =>
    intro fuel l calls hfuel h
    obtain ⟨fuel, rfl⟩ : ∃ n, fuel = n + 1 := ⟨fuel - 1, by simp at hfuel; omega⟩
    have hlive : a ∈ l.live := h.live a (by simp)
    by_cases hdue : cur < l.expireOf a
    · -- the first timer that is not due ends the tick
      have hdue' : cur < (l.node a).expire := hdue
      have hnot : ¬ l.expireOf a ≤ cur := not_le.mpr hdue
      refine ⟨l, ?_, ?_, SameData.refl l, ?_⟩
      · simp [tickLoop, deref, hlive, hdue', hnot]
      · simpa [List.dropWhile_cons, hnot] using h
      · simp [hnot]
    · have hle : l.expireOf a ≤ cur := not_lt.mp hdue
      have hdue' : ¬ cur < (l.node a).expire := hdue
      have h₀ : Linked l ([] ++ a :: rest) := h
      have hnext : (l.node a).next = rest.head? := h₀.next_eq
      obtain ⟨l₁, hl₁, hlk₁, hsd₁, hlv₁⟩ := tick_turn h
      obtain ⟨l', hl', hlk', hsd', hlv'⟩ := ih (calls ++ [l.callOf a]) (by simpa using hfuel) hlk₁
      rw [hsd₁.expireOf] at hl' hlk' hlv'
      rw [hsd₁.callOf] at hl'
      refine ⟨l', ?_, ?_, hsd₁.trans hsd', ?_⟩
      · have hstep : tickLoop cur (fuel + 1) l calls (some a) =
            tickLoop cur fuel l₁ (calls ++ [l.callOf a]) l₁.head := by
          rw [tickLoop, deref_live hlive]
          simp only [Option.bind_eq_bind, Option.bind_some, if_neg hdue', hnext]
          cases hr : rest.head? with
          | none =>
            simp only [hr, Option.bind_eq_bind, Option.bind_some] at hl₁ ⊢
            rw [hl₁]
            rfl
          | some b =>
            simp only [hr, Option.bind_eq_bind] at hl₁ ⊢
            rw [← Option.bind_assoc, hl₁]
            rfl
        rw [List.head?_cons, hstep, hlk₁.head, hl']
        simp [hle]
      · simpa [List.dropWhile_cons, hle] using hlk'
      · rw [hlv', hlv₁, List.takeWhile_cons, if_pos (by simpa using hle), List.diff_cons]

/-- **What a tick does.** It calls the leading due timers in list order, once each, and leaves
the rest of the list. -/
theorem tick_spec {l : SortTimerLst α} {xs : List Addr} (cur : Int) (h : Linked l xs) :
    ∃ l', l.tick cur = some ((xs.takeWhile fun a => l.expireOf a ≤ cur).map l.callOf, l') ∧
      Linked l' (xs.dropWhile fun a => l.expireOf a ≤ cur) ∧ SameData l l' ∧
      l'.live = l.live.diff (xs.takeWhile fun a => l.expireOf a ≤ cur) := by
  cases xs with
  | nil =>
    have hhead : l.head = none := h.head
    exact ⟨l, by simp [tick, hhead], by simpa using h, SameData.refl l, by simp⟩
  | cons a rest =>
    have hhead : l.head = some a := h.head
    obtain ⟨l', hl', hrest⟩ := tickLoop_spec cur (a :: rest) [] h.length_le h
    refine ⟨l', ?_, hrest⟩
    rw [tick, hhead]
    simpa using hl'

end SortTimerLst

end TinyHTTP.Timer
