import Mathlib.Algebra.BigOperators.Pi
import Mathlib.Algebra.Order.BigOperators.Group.Finset
import Mathlib.Algebra.Order.Group.Multiset
import Mathlib.Tactic.Abel

/-!
# TinyHTTP — sums over threads

Each of finitely many threads is at some place of its program. `total f pc` adds up
what `f` says of the places: how many threads are at some of them, or what the
threads hold.

* `total_update` — a thread that moves changes the total by its own share.
* `total_le`, `total_lt` — shares that are compared thread by thread.
* `exists_holder` — of things that are all different, each is in one place.

`Guarded` says that threads are at some places only while they hold a mutex,
`Exclusive` that the threads at these places are its holder.
-/

namespace TinyHTTP.Lib

variable {ι P M C : Type*}

section
variable [Fintype ι] [AddCommMonoid M]

/-- What `f` says of the places of all threads, added up. -/
def total (f : P → M) (pc : ι → P) : M := ∑ i, f (pc i)

/-- One thread moves, and the total changes by the share that it had and the share that it has. -/
theorem total_update [DecidableEq ι] (f : P → M) (pc : ι → P) (i : ι) (p : P) :
    total f (Function.update pc i p) + f (pc i) = total f pc + f p := by
  have hrest : ∑ j ∈ Finset.univ.erase i, f (Function.update pc i p j) =
      ∑ j ∈ Finset.univ.erase i, f (pc j) := by
    refine Finset.sum_congr rfl fun j hj => ?_
    rw [Function.update_of_ne (Finset.ne_of_mem_erase hj)]
  unfold total
  rw [← Finset.add_sum_erase _ _ (Finset.mem_univ i),
    ← Finset.add_sum_erase _ (fun j => f (pc j)) (Finset.mem_univ i), hrest, Function.update_self]
  abel

theorem total_congr {f g : P → M} {pc : ι → P} (h : ∀ i, f (pc i) = g (pc i)) :
    total f pc = total g pc :=
  Finset.sum_congr rfl fun i _ => h i

theorem total_zero {f : P → M} {pc : ι → P} (h : ∀ i, f (pc i) = 0) : total f pc = 0 :=
  Finset.sum_eq_zero fun i _ => h i

end

section
variable [Fintype ι] {f g : P → Nat} {pc : ι → P}

/-- The share of one thread. -/
theorem le_total (f : P → Nat) (pc : ι → P) (i : ι) : f (pc i) ≤ total f pc :=
  Finset.single_le_sum (f := fun j => f (pc j)) (fun _ _ => Nat.zero_le _) (Finset.mem_univ i)

theorem total_le (h : ∀ i, f (pc i) ≤ g (pc i)) : total f pc ≤ total g pc :=
  Finset.sum_le_sum fun i _ => h i

theorem total_lt (h : ∀ i, f (pc i) ≤ g (pc i)) {i : ι} (hi : f (pc i) < g (pc i)) :
    total f pc < total g pc :=
  Finset.sum_lt_sum (fun j _ => h j) ⟨i, Finset.mem_univ i, hi⟩

/-- A total of one comes from one thread. -/
theorem total_one (h : total f pc = 1) : ∃! i, 0 < f (pc i) := by
  have hsome : ∃ i, 0 < f (pc i) := by
    by_contra hnone
    push Not at hnone
    have hzero : total f pc = 0 := total_zero fun i => Nat.le_zero.mp (hnone i)
    omega
  obtain ⟨i, hi⟩ := hsome
  refine ⟨i, hi, ?_⟩
  intro j hj
  by_contra hne
  have hpair : f (pc j) + f (pc i) ≤ total f pc := by
    classical
    rw [← Finset.sum_pair (f := fun k => f (pc k)) hne]
    exact Finset.sum_le_sum_of_subset (Finset.subset_univ _)
  omega

end

section
variable [Fintype ι]

/-- How many things the threads hold. -/
theorem card_total {held : P → Multiset C} {pc : ι → P} :
    (total held pc).card = total (fun p => (held p).card) pc :=
  map_sum Multiset.cardHom _ _

variable [DecidableEq C]

/-- How many threads hold a thing, and how often. -/
theorem count_total (held : P → Multiset C) (pc : ι → P) (c : C) :
    (total held pc).count c = total (fun p => (held p).count c) pc :=
  Multiset.count_sum'

/-- Of things that are all different, each is in the pool or with one thread. -/
theorem exists_holder {held : P → Multiset C} {pc : ι → P} {pool things : Multiset C}
    (h : pool + total held pc = things) (hnodup : things.Nodup) {c : C} (hc : c ∈ things) :
    (pool.count c = 1 ∧ ∀ i, c ∉ held (pc i)) ∨ (c ∉ pool ∧ ∃! i, c ∈ held (pc i)) := by
  have hcount : pool.count c + total (fun p => (held p).count c) pc = 1 := by
    rw [← count_total, ← Multiset.count_add, h]
    exact Multiset.count_eq_one_of_mem hnodup hc
  by_cases hpool : pool.count c = 0
  · refine .inr ⟨Multiset.count_eq_zero.mp hpool, ?_⟩
    have htotal : total (fun p => (held p).count c) pc = 1 := by omega
    have hone := total_one htotal
    simpa only [Multiset.count_pos] using hone
  · refine .inl ⟨by omega, ?_⟩
    intro i hi
    have hle := le_total (fun p => (held p).count c) pc i
    have hpos := Multiset.count_pos.mpr hi
    omega

end

-- ---------------------------------------------------------------------------
-- A mutex
-- ---------------------------------------------------------------------------

/-- A thread is at one of the places only while it holds the lock. -/
def Guarded (critical : P → Prop) (lock : Option ι) (pc : ι → P) : Prop :=
  ∀ i, critical (pc i) → lock = some i

namespace Guarded

variable {critical : P → Prop} {lock : Option ι} {pc : ι → P}

theorem alone (h : Guarded critical lock pc) {i j : ι} (hi : critical (pc i))
    (hj : critical (pc j)) : i = j := by
  have hlock := h i hi
  rw [h j hj] at hlock
  exact (Option.some.inj hlock).symm

theorem not_critical (h : Guarded critical none pc) (i : ι) : ¬ critical (pc i) :=
  fun hi => nomatch h i hi

/-- With no thread at the places, the lock is anybody's. -/
theorem of_not (h : ∀ i, ¬ critical (pc i)) : Guarded critical lock pc :=
  fun i hi => absurd hi (h i)

/-- Shares that differ at critical places only: with the lock free they are the same. -/
theorem total_eq [Fintype ι] {f g : P → Nat} (h : Guarded critical none pc)
    (hfg : ∀ p, ¬ critical p → f p = g p) : total f pc = total g pc :=
  total_congr fun i => hfg _ (h.not_critical i)

/-- With the lock held, the thread that holds it makes the difference. -/
theorem total_lt [Fintype ι] {f g : P → Nat} (h : Guarded critical lock pc) {i : ι}
    (hi : critical (pc i)) (hfg : ∀ p, ¬ critical p → f p ≤ g p) (hlt : f (pc i) < g (pc i)) :
    total f pc < total g pc := by
  refine Lib.total_lt ?_ hlt
  intro j
  by_cases hj : critical (pc j)
  · rw [h.alone hj hi]
    exact Nat.le_of_lt hlt
  · exact hfg _ hj

variable [DecidableEq ι] {i : ι} {p : P}

theorem stay (h : Guarded critical lock pc) (hp : critical p → critical (pc i)) :
    Guarded critical lock (Function.update pc i p) := by
  intro j hj
  by_cases hji : j = i
  · subst hji
    rw [Function.update_self] at hj
    exact h j (hp hj)
  · rw [Function.update_of_ne hji] at hj
    exact h j hj

theorem acquire (h : Guarded critical none pc) :
    Guarded critical (some i) (Function.update pc i p) := by
  intro j hj
  by_cases hji : j = i
  · rw [hji]
  · rw [Function.update_of_ne hji] at hj
    exact absurd hj (h.not_critical j)

theorem release (h : Guarded critical lock pc) (hi : critical (pc i)) (hp : ¬ critical p) :
    Guarded critical none (Function.update pc i p) := by
  refine of_not fun j hj => ?_
  by_cases hji : j = i
  · subst hji
    rw [Function.update_self] at hj
    exact hp hj
  · rw [Function.update_of_ne hji] at hj
    exact hji (h.alone hj hi)

end Guarded

/-- A thread is at one of the places exactly when it holds the lock. -/
def Exclusive (critical : P → Prop) (lock : Option ι) (pc : ι → P) : Prop :=
  ∀ i, critical (pc i) ↔ lock = some i

namespace Exclusive

variable {critical : P → Prop} {lock : Option ι} {pc : ι → P}

theorem guarded (h : Exclusive critical lock pc) : Guarded critical lock pc :=
  fun i => (h i).mp

theorem alone (h : Exclusive critical lock pc) {i j : ι} (hi : critical (pc i))
    (hj : critical (pc j)) : i = j :=
  h.guarded.alone hi hj

theorem not_critical (h : Exclusive critical none pc) (i : ι) : ¬ critical (pc i) :=
  h.guarded.not_critical i

variable [DecidableEq ι] {i : ι} {p : P}

theorem stay (h : Exclusive critical lock pc) (hp : critical p ↔ critical (pc i)) :
    Exclusive critical lock (Function.update pc i p) := by
  intro j
  by_cases hj : j = i
  · subst hj
    rw [Function.update_self, hp]
    exact h j
  · rw [Function.update_of_ne hj]
    exact h j

theorem acquire (h : Exclusive critical none pc) (hp : critical p) :
    Exclusive critical (some i) (Function.update pc i p) := by
  intro j
  by_cases hj : j = i
  · subst hj
    rw [Function.update_self]
    exact iff_of_true hp rfl
  · rw [Function.update_of_ne hj]
    exact iff_of_false (h.not_critical j) fun he => hj (Option.some.inj he).symm

theorem release (h : Exclusive critical lock pc) (hi : critical (pc i)) (hp : ¬ critical p) :
    Exclusive critical none (Function.update pc i p) := by
  intro j
  by_cases hj : j = i
  · subst hj
    rw [Function.update_self]
    exact iff_of_false hp nofun
  · rw [Function.update_of_ne hj]
    exact iff_of_false (fun hc => hj (h.alone hc hi)) nofun

end Exclusive

end TinyHTTP.Lib
