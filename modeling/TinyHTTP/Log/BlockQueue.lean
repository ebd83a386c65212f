import Mathlib.Data.Int.ModEq
import TinyHTTP.Lib.Refine

/-!
# TinyHTTP — the queue of the logger

`block_queue` keeps its elements in an array, between two indices that go round and
start at −1. Each operation is one critical section; `pop` of an empty queue waits.

* `Represents.apply` — the indices go round with a sequence of bounded length.
* `refines_fifo` — the results are those of the sequence, and every index is in the
  array.
-/

namespace TinyHTTP.Log

open TinyHTTP.Lib

structure BlockQueue (T : Type) where
  array : Int → T
  size : Int
  maxSize : Int
  front : Int
  back : Int

/-- Why an operation does not return. -/
inductive Stop where
  /-- `m_cond.wait` -/
  | blocked
  /-- an index outside `m_array` -/
  | outOfBounds
  deriving DecidableEq, Repr

variable {T : Type}

namespace BlockQueue

/-- The constructor; `exit(-1)` for `max_size <= 0`. The new array holds anything. -/
def init (garbage : Int → T) (maxSize : Int) : Option (BlockQueue T) :=
  if maxSize ≤ 0 then none else some ⟨garbage, 0, maxSize, -1, -1⟩

def clear (q : BlockQueue T) : BlockQueue T := { q with size := 0, front := -1, back := -1 }

def full (q : BlockQueue T) : Bool := q.size ≥ q.maxSize

def empty (q : BlockQueue T) : Bool := q.size = 0

/-- `m_array[i]` -/
def read (q : BlockQueue T) (i : Int) : Except Stop T :=
  if 0 ≤ i ∧ i < q.maxSize then .ok (q.array i) else .error .outOfBounds

/-- `m_array[i] = value` -/
def write (q : BlockQueue T) (i : Int) (value : T) : Except Stop (BlockQueue T) :=
  if 0 ≤ i ∧ i < q.maxSize then .ok { q with array := Function.update q.array i value }
  else .error .outOfBounds

/-- `back(value)`; `none` when it returns false. -/
def backValue (q : BlockQueue T) : Except Stop (Option T) :=
  if q.size = 0 then .ok none else (q.read q.back).map some

def push (q : BlockQueue T) (value : T) : Except Stop (BlockQueue T × Bool) :=
  if q.size ≥ q.maxSize then .ok (q, false)
  else do
    let q := { q with back := (q.back + 1).tmod q.maxSize }
    let q ← q.write q.back value
    return ({ q with size := q.size + 1 }, true)

/-- `pop(value)` behind its `while (m_size <= 0)`. -/
def pop (q : BlockQueue T) : Except Stop (BlockQueue T × T) :=
  if q.size ≤ 0 then .error .blocked
  else do
    let q := { q with front := (q.front + 1).tmod q.maxSize }
    let value ← q.read q.front
    return ({ q with size := q.size - 1 }, value)

end BlockQueue

-- ---------------------------------------------------------------------------
-- Operations
-- ---------------------------------------------------------------------------

inductive QueueOp (T : Type) where
  | push (value : T)
  | pop
  | clear
  | size
  | empty
  | full
  | back

inductive QueueResult (T : Type) where
  | done
  | bool (b : Bool)
  | int (n : Int)
  | value (v : T)
  | lastValue (v : Option T)
  deriving DecidableEq

def BlockQueue.apply (q : BlockQueue T) : QueueOp T → Except Stop (BlockQueue T × QueueResult T)
  | .push value => (q.push value).map fun r => (r.1, .bool r.2)
  | .pop => q.pop.map fun r => (r.1, .value r.2)
  | .clear => .ok (q.clear, .done)
  | .size => .ok (q, .int q.size)
  | .empty => .ok (q, .bool q.empty)
  | .full => .ok (q, .bool q.full)
  | .back => q.backValue.map fun v => (q, .lastValue v)

/-- A sequence of bounded length, oldest element first. -/
structure Fifo (T : Type) (max : Nat) where
  items : List T
  bounded : items.length ≤ max

namespace Fifo

variable {max : Nat}

def nil : Fifo T max := ⟨[], Nat.zero_le _⟩

/-- The element is appended if the sequence is not full. -/
def push (f : Fifo T max) (value : T) : Fifo T max × Bool :=
  if h : f.items.length < max then
    (⟨f.items ++ [value], by rw [List.length_append]; exact h⟩, true)
  else (f, false)

/-- The oldest element is removed; there is none to wait for in an empty sequence. -/
def pop (f : Fifo T max) : Except Stop (Fifo T max × T) :=
  match f with
  | ⟨[], _⟩ => .error .blocked
  | ⟨x :: rest, h⟩ => .ok (⟨rest, (Nat.le_succ _).trans h⟩, x)

def apply (f : Fifo T max) : QueueOp T → Except Stop (Fifo T max × QueueResult T)
  | .push value => .ok ((f.push value).1, .bool (f.push value).2)
  | .pop => f.pop.map fun r => (r.1, .value r.2)
  | .clear => .ok (nil, .done)
  | .size => .ok (f, .int f.items.length)
  | .empty => .ok (f, .bool f.items.isEmpty)
  | .full => .ok (f, .bool (max ≤ f.items.length))
  | .back => .ok (f, .lastValue f.items.getLast?)

end Fifo

-- ---------------------------------------------------------------------------
-- The abstraction
-- ---------------------------------------------------------------------------

/-- The queue holds the sequence: `m_front` is the index before the oldest element, `m_back` that
of the newest. -/
structure Represents (q : BlockQueue T) (xs : List T) : Prop where
  pos : 0 < q.maxSize
  size : q.size = xs.length
  bounded : (xs.length : Int) ≤ q.maxSize
  front_ge : -1 ≤ q.front
  back_ge : -1 ≤ q.back
  back_lt : q.back < q.maxSize
  back_nonneg : xs ≠ [] → 0 ≤ q.back
  distance : q.front + xs.length ≡ q.back [ZMOD q.maxSize]
  items : ∀ k (hk : k < xs.length), q.array ((q.front + 1 + k) % q.maxSize) = xs[k]

theorem represents_init {garbage : Int → T} {maxSize : Int} {q : BlockQueue T}
    (h : BlockQueue.init garbage maxSize = some q) : Represents q [] := by
  unfold BlockQueue.init at h
  split at h
  · cases h
  · rename_i hpos
    obtain rfl := Option.some.inj h
    refine ⟨by simpa using hpos, rfl, ?_, Int.le_refl _, Int.le_refl _, ?_,
      fun hne => absurd rfl hne, ?_, ?_⟩
    · simp only [List.length_nil]
      omega
    · simp only
      omega
    · exact Int.ModEq.refl _
    · exact fun k hk => absurd hk (Nat.not_lt_zero k)

/-- Two places of the sequence have two indices. -/
theorem ring_ne {m a i j : Int} (hij : i < j) (hj : j - i < m) : (a + i) % m ≠ (a + j) % m := by
  intro h
  have hmod : i ≡ j [ZMOD m] := Int.ModEq.add_left_cancel' a h
  have hle := Int.le_of_dvd (by omega) (Int.modEq_iff_dvd.mp hmod)
  omega

namespace Represents

variable {q q' : BlockQueue T} {xs : List T}

theorem clear (h : Represents q xs) : Represents q.clear [] := by
  have hinit : BlockQueue.init q.array q.maxSize = some q.clear := if_neg (Int.not_le.mpr h.pos)
  exact represents_init hinit

theorem full (h : Represents q xs) : q.full = decide (q.maxSize ≤ xs.length) := by
  rw [BlockQueue.full, h.size]

/-- `m_back` is the index of the newest element. -/
theorem back_index (h : Represents q xs) (hne : xs ≠ []) :
    (q.front + 1 + (xs.length - 1 : Nat)) % q.maxSize = q.back := by
  have hpos : 0 < xs.length := List.length_pos_iff.mpr hne
  have hsum : q.front + 1 + ((xs.length - 1 : Nat) : Int) = q.front + xs.length := by omega
  rw [hsum, h.distance, Int.emod_eq_of_lt (h.back_nonneg hne) h.back_lt]

theorem backValue (h : Represents q xs) : q.backValue = .ok xs.getLast? := by
  unfold BlockQueue.backValue
  by_cases hne : xs = []
  · have hsize : q.size = 0 := by
      rw [h.size, hne]
      rfl
    rw [if_pos hsize, hne]
    rfl
  · have hpos : 0 < xs.length := List.length_pos_iff.mpr hne
    have hsize : ¬ q.size = 0 := by
      rw [h.size]
      omega
    have hlast := h.items (xs.length - 1) (by omega)
    rw [h.back_index hne] at hlast
    rw [if_neg hsize, BlockQueue.read, if_pos ⟨h.back_nonneg hne, h.back_lt⟩, hlast,
      List.getLast?_eq_getElem?, List.getElem?_eq_getElem (by omega)]
    rfl

theorem push_full (h : Represents q xs) (hfull : q.maxSize ≤ xs.length) (value : T) :
    q.push value = .ok (q, false) := by
  rw [BlockQueue.push, if_pos (by rw [h.size]; exact hfull)]

/-- The index that `push` writes is the one behind the newest element. -/
theorem next_back (h : Represents q xs) :
    (q.back + 1).tmod q.maxSize = (q.front + 1 + xs.length) % q.maxSize := by
  rw [Int.tmod_eq_emod_of_nonneg (by have := h.back_ge; omega)]
  have hnext := h.distance.symm.add_right 1
  have hsum : q.front + 1 + (xs.length : Int) = q.front + xs.length + 1 := by omega
  rw [hsum]
  exact hnext

theorem push (h : Represents q xs) (hroom : (xs.length : Int) < q.maxSize) (value : T) :
    ∃ q', q.push value = .ok (q', true) ∧ q'.maxSize = q.maxSize ∧
      Represents q' (xs ++ [value]) := by
  have hge := Int.emod_nonneg (q.front + 1 + xs.length) h.pos.ne'
  have hlt := Int.emod_lt_of_pos (q.front + 1 + xs.length) h.pos
  have hindex := h.next_back
  generalize hb : (q.front + 1 + xs.length) % q.maxSize = back at hge hlt hindex
  refine ⟨{ q with back := back, array := Function.update q.array back value, size := q.size + 1 },
    ?_, rfl, ?_⟩
  · rw [BlockQueue.push, if_neg (by rw [h.size]; omega)]
    simp only [hindex, BlockQueue.write]
    rw [if_pos ⟨hge, hlt⟩]
    rfl
  · refine ⟨h.pos, ?_, ?_, h.front_ge, ?_, hlt, fun _ => hge, ?_, ?_⟩
    · simp only [h.size, List.length_append, List.length_singleton]
      omega
    · simp only [List.length_append, List.length_singleton]
      omega
    · simp only
      omega
    · simp only [List.length_append, List.length_singleton]
      rw [← hb]
      have hsum : q.front + ((xs.length + 1 : Nat) : Int) = q.front + 1 + xs.length := by omega
      rw [hsum]
      exact (Int.mod_modEq _ _).symm
    · intro k hk
      simp only [List.length_append, List.length_singleton] at hk
      by_cases hold : k < xs.length
      · have hne : (q.front + 1 + k) % q.maxSize ≠ back := by
          rw [← hb]
          exact ring_ne (by omega) (by omega)
        simp only [Function.update_of_ne hne]
        rw [h.items k hold, List.getElem_append_left hold]
      · obtain rfl : k = xs.length := by omega
        simp only [hb, Function.update_self]
        rw [List.getElem_append_right (Nat.le_refl _)]
        simp

theorem pop_nil (h : Represents q []) : q.pop = .error .blocked := by
  rw [BlockQueue.pop, if_pos (by rw [h.size]; exact Int.le_refl _)]

theorem pop {x : T} {rest : List T} (h : Represents q (x :: rest)) :
    ∃ q', q.pop = .ok (q', x) ∧ q'.maxSize = q.maxSize ∧ Represents q' rest := by
  have hge := Int.emod_nonneg (q.front + 1) h.pos.ne'
  have hlt := Int.emod_lt_of_pos (q.front + 1) h.pos
  have hfirst := h.items 0 (Nat.zero_lt_succ _)
  have hsize := h.size
  have hbounded := h.bounded
  rw [List.length_cons] at hsize hbounded
  refine ⟨{ q with front := (q.front + 1) % q.maxSize, size := q.size - 1 }, ?_, rfl, ?_⟩
  · rw [BlockQueue.pop, if_neg (by omega)]
    simp only [Int.tmod_eq_emod_of_nonneg (show 0 ≤ q.front + 1 by have := h.front_ge; omega),
      BlockQueue.read]
    rw [if_pos ⟨hge, hlt⟩]
    simp only [Nat.cast_zero, add_zero, List.getElem_cons_zero] at hfirst
    rw [hfirst]
    rfl
  · refine ⟨h.pos, ?_, ?_, ?_, h.back_ge, h.back_lt, ?_, ?_, ?_⟩
    · simp only
      omega
    · simp only
      omega
    · simp only
      omega
    · exact fun _ => h.back_nonneg (List.cons_ne_nil x rest)
    · have hdistance := h.distance
      rw [List.length_cons] at hdistance
      have hsum :
          q.front + 1 + (rest.length : Int) = q.front + ((rest.length + 1 : Nat) : Int) := by
        omega
      refine Int.ModEq.trans ((Int.mod_modEq _ _).add_right _) ?_
      rw [hsum]
      exact hdistance
    · intro k hk
      have hitem := h.items (k + 1) (Nat.succ_lt_succ hk)
      rw [List.getElem_cons_succ] at hitem
      rw [← hitem]
      have hmod : (q.front + 1) % q.maxSize + 1 + k ≡ q.front + 1 + ((k + 1 : Nat) : Int)
          [ZMOD q.maxSize] := by
        have hsum : q.front + 1 + ((k + 1 : Nat) : Int) = q.front + 1 + 1 + k := by omega
        rw [hsum]
        exact ((Int.mod_modEq _ _).add_right 1).add_right k
      exact congrArg q.array hmod

end Represents

-- ---------------------------------------------------------------------------
-- Refinement
-- ---------------------------------------------------------------------------

/-- The queue holds the sequence, and has its capacity. -/
def Holds {max : Nat} (q : BlockQueue T) (f : Fifo T max) : Prop :=
  q.maxSize = max ∧ Represents q f.items

/-- **Step lemma.** -/
theorem Holds.apply {max : Nat} {q : BlockQueue T} {f : Fifo T max} (h : Holds q f)
    (op : QueueOp T) : Alike Holds (q.apply op) (f.apply op) := by
  obtain ⟨hmax, hq⟩ := h
  cases op with
  | push value =>
    by_cases hroom : f.items.length < max
    · obtain ⟨q', hpush, hmax', hq'⟩ := hq.push (by rw [hmax]; omega) value
      simp only [BlockQueue.apply, Fifo.apply, Fifo.push, hpush, dif_pos hroom]
      exact .ok _ ⟨hmax'.trans hmax, hq'⟩
    · have hpush := hq.push_full (by rw [hmax]; omega) value
      simp only [BlockQueue.apply, Fifo.apply, Fifo.push, hpush, dif_neg hroom]
      exact .ok _ ⟨hmax, hq⟩
  | pop =>
    obtain ⟨items, hbounded⟩ := f
    cases items with
    | nil =>
      simp only [BlockQueue.apply, Fifo.apply, Fifo.pop, hq.pop_nil]
      exact .stop _
    | cons x rest =>
      obtain ⟨q', hpop, hmax', hq'⟩ := Represents.pop hq
      simp only [BlockQueue.apply, Fifo.apply, Fifo.pop, hpop]
      exact .ok _ ⟨hmax'.trans hmax, hq'⟩
  | clear => exact .ok _ ⟨hmax, hq.clear⟩
  | size =>
    simp only [BlockQueue.apply, Fifo.apply, hq.size]
    exact .ok _ ⟨hmax, hq⟩
  | empty =>
    have hempty : q.empty = f.items.isEmpty := by
      rw [BlockQueue.empty, hq.size]
      cases f.items <;> simp
      omega
    simp only [BlockQueue.apply, Fifo.apply, hempty]
    exact .ok _ ⟨hmax, hq⟩
  | full =>
    have hfull : q.full = decide (max ≤ f.items.length) := by
      rw [hq.full, hmax]
      exact decide_eq_decide.mpr Int.ofNat_le
    simp only [BlockQueue.apply, Fifo.apply, hfull]
    exact .ok _ ⟨hmax, hq⟩
  | back =>
    simp only [BlockQueue.apply, Fifo.apply, hq.backValue]
    exact .ok _ ⟨hmax, hq⟩

theorem fifo_inBounds {max : Nat} (f : Fifo T max) (ops : List (QueueOp T)) :
    results Fifo.apply f ops ≠ .error .outOfBounds := by
  induction ops generalizing f with
  | nil => exact nofun
  | cons op ops ih =>
    have hop : f.apply op ≠ .error .outOfBounds := by
      cases op with
      | pop =>
        obtain ⟨items, hbounded⟩ := f
        cases items <;> exact nofun
      | _ => exact nofun
    unfold results
    revert hop
    generalize f.apply op = r
    intro hop
    cases r with
    | error e => exact fun he => hop (congrArg _ (Except.error.inj he))
    | ok r =>
      have hrest := ih r.1
      revert hrest
      simp only
      generalize results Fifo.apply r.1 ops = rs
      intro hrest he
      cases rs with
      | error e => exact hrest (congrArg _ (Except.error.inj he))
      | ok rs => cases he

/-- **`block_queue` refines a bounded sequence**: every sequence of operations has the same results
on both, and no index is outside the array. -/
theorem refines_fifo {garbage : Int → T} {maxSize : Int} {q : BlockQueue T}
    (h : BlockQueue.init garbage maxSize = some q) (ops : List (QueueOp T)) :
    results BlockQueue.apply q ops = results Fifo.apply (Fifo.nil : Fifo T maxSize.toNat) ops ∧
      results BlockQueue.apply q ops ≠ .error .outOfBounds := by
  have hmax : q.maxSize = maxSize.toNat := by
    unfold BlockQueue.init at h
    split at h
    · cases h
    · obtain rfl := Option.some.inj h
      simp only
      omega
  have hholds : Holds q (Fifo.nil : Fifo T maxSize.toNat) := ⟨hmax, represents_init h⟩
  have heq := results_eq (fun _ _ op h => Holds.apply h op) hholds ops
  exact ⟨heq, heq ▸ fifo_inBounds _ ops⟩

/-- Capacity 1, twice around the array. -/
theorem refines_fifo_one : ∃ q : BlockQueue Nat, BlockQueue.init (fun _ => 0) 1 = some q ∧
    results BlockQueue.apply q [.push 7, .push 8, .pop, .push 9, .back, .clear, .empty] =
      .ok [.bool true, .bool false, .value 7, .bool true, .lastValue (some 9), .done,
        .bool true] := by
  obtain ⟨q, hq⟩ : ∃ q : BlockQueue Nat, BlockQueue.init (fun _ => 0) 1 = some q := ⟨_, rfl⟩
  refine ⟨q, hq, ?_⟩
  rw [(refines_fifo hq _).1]
  rfl

end TinyHTTP.Log
