import Mathlib.Data.List.TakeWhile
import TinyHTTP.Timer.Represents

/-!
# TinyHTTP — the timer list as a table of pending timers

What a timer list is for does not mention links: it holds a set of *pending*
timers, each with an expiry and its user data, and a tick calls some of those
that are due. `Pending α` is that table and `Represents l xs p` says that the
pointer structure `l` holds exactly the timers of `p`, linked in the order `xs`.

Each operation of `sort_timer_lst` refines the obvious operation on the table
(`represents_add`, `represents_adjust`, `represents_del`, `represents_tick`).
With the nodes in expiry order, a tick is complete as well as sound: it calls
*every* timer that is due (`tick_calls_iff`).
-/

namespace TinyHTTP.Timer

open TinyHTTP.Lib

/-- The pending timers: expiry and user data by address. -/
abbrev Pending (α : Type) := Addr → Option (Int × α)

namespace SortTimerLst

variable {α : Type}

/-- The entry of the node at `a`. -/
def entryOf (l : SortTimerLst α) (a : Addr) : Int × α := ((l.node a).expire, (l.node a).userData)

theorem SameData.entryOf {l l' : SortTimerLst α} (h : SameData l l') : l'.entryOf = l.entryOf :=
  funext fun a => Prod.ext (h a).1 (h a).2

/-- `l` holds exactly the pending timers `p`, linked in the order `xs`. -/
structure Represents (l : SortTimerLst α) (xs : List Addr) (p : Pending α) : Prop where
  linked : Linked l xs
  perm : l.live.Perm xs
  table : ∀ a, p a = if a ∈ xs then some (l.entryOf a) else none

theorem Represents.mem_iff {l : SortTimerLst α} {xs : List Addr} {p : Pending α}
    (h : Represents l xs p) (a : Addr) : a ∈ xs ↔ (p a).isSome := by
  rw [h.table]
  by_cases ha : a ∈ xs <;> simp [ha]

theorem Represents.live_iff {l : SortTimerLst α} {xs : List Addr} {p : Pending α}
    (h : Represents l xs p) (a : Addr) : a ∈ l.live ↔ (p a).isSome := by
  rw [← h.mem_iff]
  exact h.perm.mem_iff

/-- A pending timer is linked, with its expiry and user data in its node. -/
theorem Represents.of_some {l : SortTimerLst α} {xs : List Addr} {p : Pending α}
    (h : Represents l xs p) {a : Addr} {e : Int} {d : α} (ha : p a = some (e, d)) :
    a ∈ xs ∧ l.expireOf a = e ∧ (l.node a).userData = d := by
  have hmem : a ∈ xs := (h.mem_iff a).mpr (by simp [ha])
  have := h.table a
  rw [if_pos hmem, ha, Option.some.injEq] at this
  exact ⟨hmem, (congrArg Prod.fst this).symm, (congrArg Prod.snd this).symm⟩

/-- An empty list has nothing pending. -/
theorem represents_empty (garbage : Addr → UtilTimer α) :
    Represents (empty garbage) [] fun _ => none :=
  ⟨⟨by simp, by simp, rfl, by simp, trivial⟩, List.Perm.refl _, by simp⟩

-- ---------------------------------------------------------------------------
-- add_timer of a fresh timer
-- ---------------------------------------------------------------------------

theorem alloc_expireOf (l : SortTimerLst α) (t : Addr) (e : Int) (d : α) :
    (l.alloc t e d).expireOf = Function.update l.expireOf t e := by
  funext a
  by_cases h : a = t
  · subst h
    simp [alloc, expireOf]
  · simp [alloc, expireOf, h]

/-- `new util_timer` followed by `add_timer` puts a fresh timer into the table. -/
theorem represents_add {l : SortTimerLst α} {xs : List Addr} {p : Pending α} {t : Addr} {e : Int}
    {d : α} (h : Represents l xs p) (hfresh : p t = none) :
    ∃ l', (l.alloc t e d).addTimer (some t) = some l' ∧
      Represents l' (insertByKey (Function.update l.expireOf t e) t xs)
        (Function.update p t (some (e, d))) ∧
      l'.expireOf = Function.update l.expireOf t e := by
  have hnx : t ∉ xs := by
    rw [h.mem_iff]
    simp [hfresh]
  have hne : ∀ a ∈ xs, a ≠ t := fun a ha e => hnx (e ▸ ha)
  have hlk : Linked (l.alloc t e d) xs := by
    refine h.linked.of_links ?_ rfl rfl ?_ ?_
    · intro a ha
      exact List.mem_cons_of_mem _ (h.linked.live a ha)
    · intro a ha
      simp [alloc, nextOf, hne a ha]
    · intro a ha
      simp [alloc, prevOf, hne a ha]
  obtain ⟨l', hl', hlk', hsd, hlv⟩ := addTimer_spec hlk (List.mem_cons_self ..) hnx
    (by simp [alloc]) (by simp [alloc])
  rw [alloc_expireOf] at hlk'
  refine ⟨l', hl', ⟨hlk', ?_, ?_⟩, ?_⟩
  · rw [hlv]
    show (t :: l.live).Perm _
    exact (h.perm.cons t).trans (List.perm_orderedInsert _ t xs).symm
  · intro a
    rw [hsd.entryOf]
    by_cases ha : a = t
    · subst ha
      simp [List.mem_orderedInsert, entryOf, alloc]
    · rw [Function.update_of_ne ha, h.table]
      simp [List.mem_orderedInsert, ha, entryOf, alloc]
  · rw [hsd.expireOf, alloc_expireOf]

-- ---------------------------------------------------------------------------
-- adjust_timer after a new expiry was written
-- ---------------------------------------------------------------------------

theorem withExpire_expireOf (l : SortTimerLst α) (t : Addr) (e : Int) :
    (l.withExpire t e).expireOf = Function.update l.expireOf t e := by
  funext a
  by_cases h : a = t
  · subst h
    simp [withExpire, expireOf]
  · simp [withExpire, expireOf, h]

theorem withExpire_entryOf (l : SortTimerLst α) (t : Addr) (e : Int) :
    (l.withExpire t e).entryOf = Function.update l.entryOf t (e, (l.node t).userData) := by
  funext a
  by_cases h : a = t
  · subst h
    simp [withExpire, entryOf]
  · simp [withExpire, entryOf, h]

/-- An expiry is no link. -/
theorem Linked.withExpire {l : SortTimerLst α} {xs : List Addr} (h : Linked l xs) (t : Addr)
    (e : Int) : Linked (l.withExpire t e) xs := by
  have hlinks : ∀ a, (l.withExpire t e).nextOf a = l.nextOf a ∧
      (l.withExpire t e).prevOf a = l.prevOf a := by
    intro a
    by_cases ha : a = t
    · subst ha
      simp [SortTimerLst.withExpire, nextOf, prevOf]
    · simp [SortTimerLst.withExpire, nextOf, prevOf, ha]
  exact h.of_links h.live rfl rfl (fun a _ => (hlinks a).1) (fun a _ => (hlinks a).2)

/-- `timer->expire = e` followed by `adjust_timer` re-schedules a pending timer. The other
timers keep their order, and the timer moves right by the insertion rule. -/
theorem represents_adjust {l : SortTimerLst α} {pre post : List Addr} {p : Pending α} {t : Addr}
    {e e₀ : Int} {d : α} (h : Represents l (pre ++ t :: post) p) (ht : p t = some (e₀, d)) :
    ∃ l', (l.setExpire t e).bind (fun l => l.adjustTimer (some t)) = some l' ∧
      Represents l' (pre ++ insertByKey (Function.update l.expireOf t e) t post)
        (Function.update p t (some (e, d))) ∧
      l'.expireOf = Function.update l.expireOf t e := by
  have hlive : t ∈ l.live := h.linked.live t (by simp)
  have hlk : Linked (l.withExpire t e) (pre ++ t :: post) := h.linked.withExpire t e
  obtain ⟨l', hl', hlk', hsd, hlv⟩ := adjustTimer_spec hlk
  rw [withExpire_expireOf] at hlk'
  have hperm : (pre ++ t :: post).Perm
      (pre ++ insertByKey (Function.update l.expireOf t e) t post) :=
    (List.perm_orderedInsert _ t post).symm.append_left pre
  refine ⟨l', ?_, ⟨hlk', ?_, ?_⟩, ?_⟩
  · rw [setExpire, if_pos hlive, Option.bind_some]
    exact hl'
  · rw [hlv]
    exact h.perm.trans hperm
  · intro a
    have hd := (h.of_some ht).2.2
    rw [hsd.entryOf, withExpire_entryOf, hd]
    by_cases ha : a = t
    · subst ha
      simp [List.mem_orderedInsert]
    · rw [Function.update_of_ne ha, Function.update_of_ne ha, h.table]
      have hiff : a ∈ pre ++ t :: post ↔
          a ∈ pre ++ insertByKey (Function.update l.expireOf t e) t post := hperm.mem_iff
      simp only [hiff]
  · rw [hsd.expireOf, withExpire_expireOf]

-- ---------------------------------------------------------------------------
-- del_timer
-- ---------------------------------------------------------------------------

/-- `del_timer` removes a pending timer from the table. -/
theorem represents_del {l : SortTimerLst α} {pre post : List Addr} {p : Pending α} {t : Addr}
    (h : Represents l (pre ++ t :: post) p) :
    ∃ l', l.delTimer (some t) = some l' ∧
      Represents l' (pre ++ post) (Function.update p t none) ∧ l'.expireOf = l.expireOf := by
  obtain ⟨l', hl', hlk, hsd, hlv⟩ := delTimer_spec h.linked
  have hnt : t ∉ pre ++ post := fun hm => h.linked.ne_of_mem hm rfl
  refine ⟨l', hl', ⟨hlk, ?_, ?_⟩, hsd.expireOf⟩
  · rw [hlv]
    have := (h.perm.trans List.perm_middle).erase t
    rwa [List.erase_cons_head] at this
  · intro a
    rw [hsd.entryOf]
    by_cases ha : a = t
    · subst ha
      rw [Function.update_self, if_neg hnt]
    · rw [Function.update_of_ne ha, h.table]
      simp [ha]

-- ---------------------------------------------------------------------------
-- tick
-- ---------------------------------------------------------------------------

/-- Taking out a list that stands in front leaves what follows it. -/
theorem append_diff_left (xs ys : List Addr) : (xs ++ ys).diff xs = ys := by
  induction xs with
  | nil => rfl
  | cons a rest ih =>
    rw [List.cons_append, List.diff_cons, List.erase_cons_head]
    exact ih

/-- The table after the timers called were deleted. -/
def Pending.without (p : Pending α) (called : List Addr) : Pending α :=
  fun a => if a ∈ called then none else p a

/-- A tick calls pending timers that are due, each once, and removes them from the table. -/
theorem represents_tick {l : SortTimerLst α} {xs : List Addr} {p : Pending α} (cur : Int)
    (h : Represents l xs p) :
    ∃ calls l', l.tick cur = some (calls, l') ∧
      calls.map Prod.fst = xs.takeWhile (fun a => l.expireOf a ≤ cur) ∧
      (calls.map Prod.fst).Nodup ∧
      (∀ c ∈ calls, ∃ e, p c.1 = some (e, c.2) ∧ e ≤ cur) ∧
      Represents l' (xs.dropWhile fun a => l.expireOf a ≤ cur)
        (Pending.without p (calls.map Prod.fst)) ∧
      l'.expireOf = l.expireOf := by
  obtain ⟨l', hl', hlk, hsd, hlv⟩ := tick_spec cur h.linked
  have hsplit :=
    List.takeWhile_append_dropWhile (p := fun a => decide (l.expireOf a ≤ cur)) (l := xs)
  have hfst : ((xs.takeWhile fun a => l.expireOf a ≤ cur).map l.callOf).map Prod.fst =
      xs.takeWhile fun a => l.expireOf a ≤ cur := by
    rw [List.map_map]
    exact List.map_id _
  refine ⟨_, l', hl', hfst, ?_, ?_, ⟨hlk, ?_, ?_⟩, hsd.expireOf⟩
  · rw [hfst]
    exact h.linked.nodup.sublist (List.takeWhile_sublist _)
  · intro c hc
    obtain ⟨a, ha, rfl⟩ := List.mem_map.mp hc
    have hax : a ∈ xs := (List.takeWhile_sublist _).subset ha
    refine ⟨l.expireOf a, ?_, by simpa using List.mem_takeWhile_imp ha⟩
    show p a = _
    rw [h.table, if_pos hax]
    rfl
  · rw [hlv]
    -- the live nodes are the called ones followed by the linked ones
    have hperm := h.perm
    rw [← hsplit] at hperm
    have := hperm.diff_right (xs.takeWhile fun a => l.expireOf a ≤ cur)
    rwa [append_diff_left] at this
  · intro a
    rw [hsd.entryOf, Pending.without, hfst, h.table]
    have hmem : a ∈ xs ↔ a ∈ xs.takeWhile (fun a => l.expireOf a ≤ cur) ∨
        a ∈ xs.dropWhile (fun a => l.expireOf a ≤ cur) := by
      rw [← List.mem_append, hsplit]
    have hnd := h.linked.nodup
    rw [← hsplit] at hnd
    by_cases ht : a ∈ xs.takeWhile fun a => l.expireOf a ≤ cur
    · have hd : a ∉ xs.dropWhile fun a => l.expireOf a ≤ cur :=
        fun hd => (List.nodup_append.mp hnd).2.2 a ht a hd rfl
      rw [if_pos ht, if_neg hd]
    · rw [if_neg ht]
      simp [hmem, ht]

/-- On a list in expiry order a tick calls every timer that is due. -/
theorem tick_calls_iff {l : SortTimerLst α} {xs : List Addr} {p : Pending α} {cur : Int}
    {calls : List (Addr × α)} (h : Represents l xs p) (hs : SortedByKey l.expireOf xs)
    (hcalls : calls.map Prod.fst = xs.takeWhile fun a => l.expireOf a ≤ cur)
    (hdata : ∀ c ∈ calls, ∃ e, p c.1 = some (e, c.2) ∧ e ≤ cur) (a : Addr) (d : α) :
    (a, d) ∈ calls ↔ ∃ e, p a = some (e, d) ∧ e ≤ cur := by
  constructor
  · exact hdata (a, d)
  · rintro ⟨e, hp, hle⟩
    obtain ⟨hax, hexp, -⟩ := h.of_some hp
    have hat : a ∈ calls.map Prod.fst := by
      rw [hcalls]
      exact (mem_takeWhile_key _ hs cur a).mpr ⟨hax, hexp ▸ hle⟩
    obtain ⟨c, hc, rfl⟩ := List.mem_map.mp hat
    obtain ⟨e', hp', -⟩ := hdata c hc
    have hd : d = c.2 := by
      rw [hp, Option.some.injEq, Prod.mk.injEq] at hp'
      exact hp'.2
    rwa [hd]

end SortTimerLst

end TinyHTTP.Timer
