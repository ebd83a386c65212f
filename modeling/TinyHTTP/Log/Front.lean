import TinyHTTP.Lib.Run
import TinyHTTP.Log.BlockQueue

/-!
# TinyHTTP — looking at the front of the queue

`m_front` is the index before the oldest element: `pop` moves it on and then reads,
`front` reads it as it stands. What `front` finds there is what was popped last, or,
in a full queue, the newest element; before the first `pop` there is nothing there.

* `Remembers.apply` — what the slot before the oldest element holds.
* `front_iff` — `front` agrees with `pop` when this is the oldest element again.
-/

namespace TinyHTTP.Log

open TinyHTTP.Lib

variable {T : Type}

/-- `front(value)`; `none` when it returns false. -/
def BlockQueue.frontValue (q : BlockQueue T) : Except Stop (Option T) :=
  if q.size = 0 then .ok none else (q.read q.front).map some

/-- The state after an operation, when it returns. -/
def queueStep (q : BlockQueue T) (op : QueueOp T) : Option (BlockQueue T) :=
  (q.apply op).toOption.map (·.1)

/-- `front` returns true, from an index of the array, with what a `pop` would return. -/
def FrontAgrees (q : BlockQueue T) : Prop :=
  ∃ v q', q.frontValue = .ok (some v) ∧ q.pop = .ok (q', v)

-- ---------------------------------------------------------------------------
-- What was popped last
-- ---------------------------------------------------------------------------

/-- The sequence, and the element popped last since the construction or the last `clear`. -/
structure Past (T : Type) where
  popped : Option T
  items : List T

namespace Past

def nil : Past T := ⟨none, []⟩

/-- One operation on a sequence of at most `max` elements. -/
def step (max : Int) (p : Past T) : QueueOp T → Option (Past T)
  | .push value =>
    if p.items.length < max then some { p with items := p.items ++ [value] } else some p
  | .pop =>
    match p.items with
    | [] => none
    | x :: rest => some ⟨some x, rest⟩
  | .clear => some nil
  | .size | .empty | .full | .back => some p

/-- What the slot before the oldest element holds: a full sequence has come round to it. -/
def before (max : Int) (p : Past T) : Option T :=
  match p.popped with
  | none => none
  | some x => if p.items.length < max then some x else p.items.getLast?

end Past

/-- The queue holds the sequence; no index has been popped, or `m_front` is the one popped
last. -/
structure Remembers (q : BlockQueue T) (p : Past T) : Prop where
  represents : Represents q p.items
  fresh : p.popped = none → q.front = -1
  popped : ∀ x, p.popped = some x → 0 ≤ q.front ∧ q.front < q.maxSize ∧
    p.before q.maxSize = some (q.array q.front)

theorem remembers_init {garbage : Int → T} {maxSize : Int} {q : BlockQueue T}
    (h : BlockQueue.init garbage maxSize = some q) : Remembers q Past.nil := by
  have hrep := represents_init h
  unfold BlockQueue.init at h
  split at h
  · cases h
  · obtain rfl := Option.some.inj h
    exact ⟨hrep, fun _ => rfl, nofun⟩

namespace Remembers

variable {q q' : BlockQueue T} {p : Past T}

theorem clear (h : Remembers q p) : Remembers q.clear Past.nil :=
  ⟨h.represents.clear, fun _ => rfl, nofun⟩

/-- The slots that `push` fills end at the one before the oldest element. -/
theorem push (h : Remembers q p) (hroom : (p.items.length : Int) < q.maxSize) (value : T)
    (hpush : q.push value = .ok (q', true)) (hrep : Represents q' (p.items ++ [value])) :
    Remembers q' { p with items := p.items ++ [value] } := by
  have hge := Int.emod_nonneg (q.front + 1 + p.items.length) h.represents.pos.ne'
  have hlt := Int.emod_lt_of_pos (q.front + 1 + p.items.length) h.represents.pos
  have hindex := h.represents.next_back
  generalize hb : (q.front + 1 + p.items.length) % q.maxSize = back at hge hlt hindex
  have hq' : q' = { q with
      back := back, array := Function.update q.array back value, size := q.size + 1 } := by
    rw [BlockQueue.push, if_neg (by rw [h.represents.size]; omega)] at hpush
    simp only [hindex, BlockQueue.write] at hpush
    rw [if_pos ⟨hge, hlt⟩] at hpush
    exact (congrArg Prod.fst (Except.ok.inj hpush)).symm
  subst hq'
  refine ⟨hrep, h.fresh, fun x hx => ?_⟩
  obtain ⟨hfront, hmax, hbefore⟩ := h.popped x hx
  refine ⟨hfront, hmax, ?_⟩
  have hx' : p.popped = some x := hx
  simp only [Past.before, hx', if_pos hroom, Option.some.injEq] at hbefore
  simp only [Past.before, hx', List.length_append, List.length_singleton]
  by_cases hfull : ((p.items.length + 1 : Nat) : Int) < q.maxSize
  · -- the new element stands elsewhere
    have hne : q.front ≠ back := by
      intro heq
      have hmod : (q.front + 0) % q.maxSize = (q.front + ((p.items.length + 1 : Nat) : Int))
          % q.maxSize := by
        rw [add_zero, Int.emod_eq_of_lt hfront hmax, heq, ← hb]
        congr 1
        omega
      exact ring_ne (by omega) (by omega) hmod
    rw [if_pos hfull, hbefore, Function.update_of_ne hne]
  · -- the sequence is full now: `value` stands in the slot
    have heq : back = q.front := by
      have hsum : q.front + 1 + (p.items.length : Int) = q.front + q.maxSize := by omega
      rw [← hb, hsum, Int.add_emod_right, Int.emod_eq_of_lt hfront hmax]
    rw [if_neg hfull, heq, Function.update_self, List.getLast?_concat]

/-- `pop` leaves what it returns in the slot before the next element. -/
theorem pop {x : T} {rest : List T} (h : Remembers q p) (hitems : p.items = x :: rest)
    (hpop : q.pop = .ok (q', x)) (hrep : Represents q' rest) : Remembers q' ⟨some x, rest⟩ := by
  have hq := h.represents
  rw [hitems] at hq
  have hge := Int.emod_nonneg (q.front + 1) hq.pos.ne'
  have hlt := Int.emod_lt_of_pos (q.front + 1) hq.pos
  have hfirst := hq.items 0 (Nat.zero_lt_succ _)
  simp only [Nat.cast_zero, add_zero, List.getElem_cons_zero] at hfirst
  have hsize := hq.size
  have hbounded := hq.bounded
  rw [List.length_cons] at hsize hbounded
  have hq' : q' = { q with front := (q.front + 1) % q.maxSize, size := q.size - 1 } := by
    rw [BlockQueue.pop, if_neg (by omega)] at hpop
    simp only [Int.tmod_eq_emod_of_nonneg (show 0 ≤ q.front + 1 by have := hq.front_ge; omega),
      BlockQueue.read] at hpop
    rw [if_pos ⟨hge, hlt⟩] at hpop
    exact (congrArg Prod.fst (Except.ok.inj hpop)).symm
  subst hq'
  refine ⟨hrep, fun hnone => ?_, fun y hy => ⟨hge, hlt, ?_⟩⟩
  · cases hnone
  have hroom : (rest.length : Int) < q.maxSize := by omega
  simp only [Past.before, if_pos hroom, hfirst]

/-- **Step lemma.** -/
theorem apply (h : Remembers q p) {op : QueueOp T} (hstep : queueStep q op = some q') :
    q'.maxSize = q.maxSize ∧ ∃ p', p.step q.maxSize op = some p' ∧ Remembers q' p' := by
  have hq := h.represents
  cases op with
  | push value =>
    by_cases hroom : (p.items.length : Int) < q.maxSize
    · obtain ⟨t, hpush, hmax, hrep⟩ := hq.push hroom value
      simp only [queueStep, BlockQueue.apply, hpush] at hstep
      obtain rfl := Option.some.inj hstep
      exact ⟨hmax, _, if_pos hroom, h.push hroom value hpush hrep⟩
    · have hpush := hq.push_full (by omega) value
      simp only [queueStep, BlockQueue.apply, hpush] at hstep
      obtain rfl := Option.some.inj hstep
      exact ⟨rfl, _, if_neg hroom, h⟩
  | pop =>
    cases hitems : p.items with
    | nil =>
      rw [hitems] at hq
      simp only [queueStep, BlockQueue.apply, hq.pop_nil] at hstep
      cases hstep
    | cons x rest =>
      rw [hitems] at hq
      obtain ⟨t, hpop, hmax, hrep⟩ := hq.pop
      simp only [queueStep, BlockQueue.apply, hpop] at hstep
      obtain rfl := Option.some.inj hstep
      exact ⟨hmax, _, by simp only [Past.step, hitems], h.pop hitems hpop hrep⟩
  | clear =>
    obtain rfl := Option.some.inj hstep
    exact ⟨rfl, _, rfl, h.clear⟩
  | size =>
    obtain rfl := Option.some.inj hstep
    exact ⟨rfl, _, rfl, h⟩
  | empty =>
    obtain rfl := Option.some.inj hstep
    exact ⟨rfl, _, rfl, h⟩
  | full =>
    obtain rfl := Option.some.inj hstep
    exact ⟨rfl, _, rfl, h⟩
  | back =>
    simp only [queueStep, BlockQueue.apply, hq.backValue] at hstep
    obtain rfl := Option.some.inj hstep
    exact ⟨rfl, _, rfl, h⟩

/-- **Run lemma.** -/
theorem run (h : Remembers q p) {ops : List (QueueOp T)}
    (hrun : runSteps queueStep q ops = some q') :
    q'.maxSize = q.maxSize ∧
      ∃ p', runSteps (Past.step q.maxSize) p ops = some p' ∧ Remembers q' p' := by
  induction ops generalizing q p with
  | nil =>
    obtain rfl := Option.some.inj hrun
    exact ⟨rfl, p, rfl, h⟩
  | cons op ops ih =>
    rw [runSteps, Option.bind_eq_some_iff] at hrun
    obtain ⟨t, ht, hrun⟩ := hrun
    obtain ⟨hmax, p₁, hp₁, h₁⟩ := h.apply ht
    obtain ⟨hmax', p', hp', h'⟩ := ih h₁ hrun
    rw [hmax] at hp' hmax'
    refine ⟨hmax', p', ?_, h'⟩
    rw [runSteps, hp₁]
    exact hp'

/-- `front` of a queue that is not empty reads the slot before the oldest element. -/
theorem frontValue (h : Remembers q p) (hne : p.items ≠ []) :
    q.frontValue = match p.before q.maxSize with
      | none => .error .outOfBounds
      | some v => .ok (some v) := by
  have hpos : 0 < p.items.length := List.length_pos_iff.mpr hne
  have hsize : ¬ q.size = 0 := by
    rw [h.represents.size]
    omega
  rw [BlockQueue.frontValue, if_neg hsize, BlockQueue.read]
  cases hp : p.popped with
  | none =>
    have hout : ¬ (0 ≤ q.front ∧ q.front < q.maxSize) := by
      rw [h.fresh hp]
      omega
    rw [if_neg hout, Past.before, hp]
    rfl
  | some x =>
    obtain ⟨hge, hlt, hbefore⟩ := h.popped x hp
    rw [if_pos ⟨hge, hlt⟩, hbefore]
    rfl

theorem frontAgrees (h : Remembers q p) (hne : p.items ≠ []) :
    FrontAgrees q ↔ p.before q.maxSize = p.items.head? := by
  have hfront := h.frontValue hne
  have hq := h.represents
  cases hitems : p.items with
  | nil => exact absurd hitems hne
  | cons x rest =>
    rw [hitems] at hq
    obtain ⟨t, hpop, -, -⟩ := hq.pop
    rw [List.head?_cons]
    constructor
    · rintro ⟨v, t', hv, hpop'⟩
      have hvx : v = x := by
        rw [hpop] at hpop'
        exact (congrArg Prod.snd (Except.ok.inj hpop')).symm
      rw [hfront] at hv
      cases hb : p.before q.maxSize with
      | none =>
        rw [hb] at hv
        cases hv
      | some w =>
        rw [hb] at hv
        obtain rfl : w = v := Option.some.inj (Except.ok.inj hv)
        rw [hvx]
    · intro hb
      rw [hb] at hfront
      exact ⟨x, t, hfront, hpop⟩

end Remembers

-- ---------------------------------------------------------------------------
-- Every queue
-- ---------------------------------------------------------------------------

/-- **When `front` agrees with `pop`.** In a queue that is not empty, after any operations: exactly
when something was popped since the construction or the last `clear`, and it (in a full queue: the
newest element) equals the oldest element. -/
theorem front_iff {garbage : Int → T} {maxSize : Int} {q q' : BlockQueue T}
    (h : BlockQueue.init garbage maxSize = some q) {ops : List (QueueOp T)}
    (hrun : runSteps queueStep q ops = some q') (hne : q'.empty = false) :
    ∃ p, runSteps (Past.step maxSize) Past.nil ops = some p ∧
      (FrontAgrees q' ↔ p.before maxSize = p.items.head?) := by
  have hmax : q.maxSize = maxSize := by
    unfold BlockQueue.init at h
    split at h
    · cases h
    · obtain rfl := Option.some.inj h
      rfl
  obtain ⟨hmax', p, hp, hr⟩ := (remembers_init h).run hrun
  rw [hmax] at hp hmax'
  refine ⟨p, hp, ?_⟩
  have hitems : p.items ≠ [] := by
    intro hnil
    have hsize := hr.represents.size
    rw [hnil] at hsize
    rw [BlockQueue.empty, hsize] at hne
    cases hne
  rw [← hmax']
  exact hr.frontAgrees hitems

/-- Two equal elements, the first one popped. -/
theorem front_iff_equal : ∃ q q' : BlockQueue Nat, BlockQueue.init (fun _ => 0) 2 = some q ∧
    runSteps queueStep q [.push 7, .push 7, .pop] = some q' ∧ FrontAgrees q' := by
  obtain ⟨p, hp, hiff⟩ := @front_iff Nat (fun _ => 0) 2 _ _ rfl [.push 7, .push 7, .pop] rfl rfl
  obtain rfl := Option.some.inj hp
  exact ⟨_, _, rfl, rfl, hiff.mpr rfl⟩

/-- Two elements after the construction: `front` reads the array at −1. After a `pop` it returns
the element that was popped. -/
theorem front_disagrees : ∃ q q₁ q₂ : BlockQueue Nat, BlockQueue.init (fun _ => 0) 3 = some q ∧
    runSteps queueStep q [.push 7, .push 8] = some q₁ ∧ q₁.empty = false ∧ ¬ FrontAgrees q₁ ∧
    q₁.frontValue = .error .outOfBounds ∧
    runSteps queueStep q₁ [.pop] = some q₂ ∧ q₂.empty = false ∧ ¬ FrontAgrees q₂ ∧
    q₂.frontValue = .ok (some 7) := by
  refine ⟨_, _, _, rfl, rfl, rfl, ?_, rfl, rfl, rfl, ?_, rfl⟩
  · rintro ⟨v, q', hv, -⟩
    cases hv
  · rintro ⟨v, q', hv, hpop⟩
    have h7 : 7 = v := Option.some.inj (Except.ok.inj hv)
    have h8 : 8 = v := congrArg Prod.snd (Except.ok.inj hpop)
    omega

end TinyHTTP.Log
