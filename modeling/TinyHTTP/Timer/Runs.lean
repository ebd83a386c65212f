import Mathlib.Data.List.Induction
import TinyHTTP.Timer.Pending

/-!
# TinyHTTP — whole runs of the timer list

A run is a sequence of operations on an initially empty `sort_timer_lst`. What
should be pending after a run is defined from the operations alone
(`pending`): a timer is put in by `add`, re-scheduled by `adjust`, taken out by
`del`, and taken out by the first `tick` whose time reaches its expiry.

* `exec_spec` — every legal run is executed without touching a dead node, the
  list it leaves represents exactly `pending`, in expiry order, and each
  operation makes exactly the calls that `pending` predicts.
* `list_well_formed` — the links, `head` and `tail` after any run.
-/

namespace TinyHTTP.Timer

open TinyHTTP.Lib SortTimerLst

variable {α : Type}

/-- An operation on the list, with the arguments its caller chooses. -/
inductive Op (α : Type) where
  /-- `add_timer(new util_timer)` with this expiry and user data, at this address. -/
  | add (timer : Addr) (expire : Int) (userData : α)
  /-- `timer->expire = expire; adjust_timer(timer)` -/
  | adjust (timer : Addr) (expire : Int)
  | del (timer : Addr)
  /-- `tick()` when the clock reads `cur` -/
  | tick (cur : Int)

/-- One operation: the callbacks it invokes and the list it leaves. -/
def apply (l : SortTimerLst α) : Op α → Option (List (Addr × α) × SortTimerLst α)
  | .add t e d =>
    -- `new` never returns a block that is still in use
    if t ∈ l.live then none
    else ((l.alloc t e d).addTimer (some t)).map fun l => ([], l)
  | .adjust t e =>
    ((l.setExpire t e).bind fun l => l.adjustTimer (some t)).map fun l => ([], l)
  | .del t => (l.delTimer (some t)).map fun l => ([], l)
  | .tick cur => l.tick cur

/-- A run: the callbacks of each operation, and the list left at the end. -/
def exec : SortTimerLst α → List (Op α) → Option (List (List (Addr × α)) × SortTimerLst α)
  | l, [] => some ([], l)
  | l, op :: ops => do
    let (calls, l) ← apply l op
    let (rest, l) ← exec l ops
    some (calls :: rest, l)

-- ---------------------------------------------------------------------------
-- What a history of operations leaves pending
-- ---------------------------------------------------------------------------

/-- The effect of one operation on what is pending. -/
def pendStep (p : Pending α) : Op α → Pending α
  | .add t e d => Function.update p t (some (e, d))
  | .adjust t e => Function.update p t ((p t).map fun x => (e, x.2))
  | .del t => Function.update p t none
  | .tick cur => fun a => (p a).filter fun x => cur < x.1

/-- The timers added and neither deleted nor expired, with their current expiry. -/
def pending (ops : List (Op α)) : Pending α := ops.foldl pendStep fun _ => none

/-- What the caller of an operation has to respect: a fresh node is not in use; the timer named
by `adjust` and `del` is pending; `adjust` never lowers an expiry. -/
def Legal (p : Pending α) : Op α → Prop
  | .add t _ _ => p t = none
  | .adjust t e => ∃ e₀ d, p t = some (e₀, d) ∧ e₀ ≤ e
  | .del t => ∃ e d, p t = some (e, d)
  | .tick _ => True

/-- Every operation of the run is legal where it stands. -/
def LegalRun (ops : List (Op α)) : Prop :=
  ∀ pre op post, ops = pre ++ op :: post → Legal (pending pre) op

/-- The calls an operation makes, as far as the table of pending timers determines them. -/
def CallsOf (p : Pending α) : Op α → List (Addr × α) → Prop
  | .tick cur, calls =>
    (calls.map Prod.fst).Nodup ∧
    (∀ a d, (a, d) ∈ calls ↔ ∃ e, p a = some (e, d) ∧ e ≤ cur) ∧
    calls.Pairwise fun x y => ∀ ex ey, p x.1 = some (ex, x.2) → p y.1 = some (ey, y.2) → ex ≤ ey
  | _, calls => calls = []

@[simp] theorem pending_concat (ops : List (Op α)) (op : Op α) :
    pending (ops ++ [op]) = pendStep (pending ops) op := by
  simp [pending]

theorem legalRun_nil : LegalRun ([] : List (Op α)) := by
  intro pre op post e
  simp at e

theorem LegalRun.concat {ops : List (Op α)} {op : Op α} (h : LegalRun ops)
    (hl : Legal (pending ops) op) : LegalRun (ops ++ [op]) := by
  intro pre op' post e
  rcases List.eq_nil_or_concat post with rfl | ⟨post', x, rfl⟩
  · obtain ⟨rfl, e⟩ := List.append_inj' e rfl
    obtain rfl : op = op' := by simpa using e
    exact hl
  · rw [List.concat_eq_append, ← List.cons_append, ← List.append_assoc] at e
    obtain ⟨rfl, -⟩ := List.append_inj' e rfl
    exact h pre op' post' rfl

theorem LegalRun.of_append {ops ops' : List (Op α)} (h : LegalRun (ops ++ ops')) : LegalRun ops :=
  fun pre op post e => h pre op (post ++ ops') (by simp [e])

theorem LegalRun.last {ops : List (Op α)} {op : Op α} (h : LegalRun (ops ++ [op])) :
    Legal (pending ops) op := h ops op [] rfl

-- ---------------------------------------------------------------------------
-- One operation
-- ---------------------------------------------------------------------------

/-- The list represents the table, in expiry order. -/
def Sound (l : SortTimerLst α) (p : Pending α) : Prop :=
  ∃ xs, Represents l xs p ∧ SortedByKey l.expireOf xs

/-- Keys that agree on a list sort it alike. -/
theorem sortedByKey_congr {key key' : Addr → Int} {xs : List Addr}
    (h : ∀ a ∈ xs, key' a = key a) (hs : SortedByKey key xs) : SortedByKey key' xs := by
  refine List.Pairwise.imp_of_mem ?_ hs
  intro a b ha hb hab
  rw [h a ha, h b hb]
  exact hab

theorem Sound.live_iff {l : SortTimerLst α} {p : Pending α} (h : Sound l p) (a : Addr) :
    a ∈ l.live ↔ (p a).isSome := by
  obtain ⟨xs, hr, -⟩ := h
  exact hr.live_iff a

/-- `new util_timer` and `add_timer`. -/
theorem sound_add {l : SortTimerLst α} {p : Pending α} {t : Addr} (e : Int) (d : α)
    (h : Sound l p) (hl : p t = none) :
    ∃ l', (l.alloc t e d).addTimer (some t) = some l' ∧
      Sound l' (Function.update p t (some (e, d))) := by
  have hlive : t ∉ l.live := by
    rw [h.live_iff]
    simp [hl]
  obtain ⟨xs, hr, hs⟩ := h
  have htx : t ∉ xs := fun hx => hlive (hr.linked.live t hx)
  obtain ⟨l', hl', hr', hexp⟩ := represents_add (e := e) (d := d) hr hl
  refine ⟨l', hl', _, hr', ?_⟩
  rw [hexp]
  refine sortedByKey_insert _ (sortedByKey_congr ?_ hs)
  intro a ha
  have hat : a ≠ t := fun e => htx (e ▸ ha)
  exact Function.update_of_ne hat ..

/-- `timer->expire = e` and `adjust_timer`, for an expiry that is not lowered. -/
theorem sound_adjust {l : SortTimerLst α} {p : Pending α} {t : Addr} {e e₀ : Int} {d : α}
    (h : Sound l p) (hl : p t = some (e₀, d)) (hle : e₀ ≤ e) :
    ∃ l', (l.setExpire t e).bind (fun l => l.adjustTimer (some t)) = some l' ∧
      Sound l' (Function.update p t (some (e, d))) := by
  obtain ⟨xs, hr, hs⟩ := h
  obtain ⟨htx, hexp₀, -⟩ := hr.of_some hl
  obtain ⟨pre, post, rfl⟩ := List.append_of_mem htx
  obtain ⟨l', hl', hr', hexp⟩ := represents_adjust (e := e) hr hl
  refine ⟨l', hl', pre ++ insertByKey (Function.update l.expireOf t e) t post, hr', ?_⟩
  rw [hexp]
  have hrest : SortedByKey (Function.update l.expireOf t e) (pre ++ post) := by
    have hsub : (pre ++ post).Sublist (pre ++ t :: post) :=
      (List.sublist_cons_self t post).append_left pre
    refine sortedByKey_congr ?_ (hs.sublist hsub)
    intro a ha
    exact Function.update_of_ne (hr.linked.ne_of_mem ha) ..
  -- what stands before the timer expires no later than its new expiry
  have hpre : ∀ b ∈ pre, Function.update l.expireOf t e b ≤ Function.update l.expireOf t e t := by
    intro b hb
    have hbt : b ≠ t := hr.linked.ne_of_mem (List.mem_append_left _ hb)
    have hb₀ := (List.pairwise_append.mp hs).2.2 b hb t (List.mem_cons_self ..)
    rw [Function.update_self, Function.update_of_ne hbt]
    omega
  rw [← insertByKey_append _ hpre]
  exact sortedByKey_insert _ hrest

/-- `del_timer` of a pending timer. -/
theorem sound_del {l : SortTimerLst α} {p : Pending α} {t : Addr} {e : Int} {d : α}
    (h : Sound l p) (hl : p t = some (e, d)) :
    ∃ l', l.delTimer (some t) = some l' ∧ Sound l' (Function.update p t none) := by
  obtain ⟨xs, hr, hs⟩ := h
  obtain ⟨pre, post, rfl⟩ := List.append_of_mem (hr.of_some hl).1
  obtain ⟨l', hl', hr', hexp⟩ := represents_del hr
  refine ⟨l', hl', _, hr', ?_⟩
  rw [hexp]
  exact hs.sublist ((List.sublist_cons_self t post).append_left pre)

/-- What a tick leaves pending is what it has not called. -/
theorem pendStep_tick {p : Pending α} {cur : Int} {calls : List (Addr × α)}
    (h : CallsOf p (.tick cur) calls) :
    pendStep p (.tick cur) = Pending.without p (calls.map Prod.fst) := by
  funext a
  show (p a).filter (fun x => cur < x.1) = if a ∈ calls.map Prod.fst then none else p a
  cases hp : p a with
  | none => simp
  | some x =>
    obtain ⟨e, d⟩ := x
    by_cases hle : e ≤ cur
    · have hm : a ∈ calls.map Prod.fst :=
        List.mem_map.mpr ⟨(a, d), (h.2.1 a d).mpr ⟨e, hp, hle⟩, rfl⟩
      rw [if_pos hm, Option.filter_some, if_neg (by simpa using hle)]
    · have hm : a ∉ calls.map Prod.fst := by
        intro hm
        obtain ⟨c, hc, rfl⟩ := List.mem_map.mp hm
        obtain ⟨e', hp', hle'⟩ := (h.2.1 c.1 c.2).mp hc
        rw [hp, Option.some.injEq, Prod.mk.injEq] at hp'
        omega
      rw [if_neg hm, Option.filter_some, if_pos (by simpa using hle)]

/-- `tick()` calls exactly the timers that are due, in expiry order, and takes them out. -/
theorem sound_tick {l : SortTimerLst α} {p : Pending α} (cur : Int) (h : Sound l p) :
    ∃ calls l', l.tick cur = some (calls, l') ∧ CallsOf p (.tick cur) calls ∧
      Sound l' (pendStep p (.tick cur)) := by
  obtain ⟨xs, hr, hs⟩ := h
  obtain ⟨calls, l', hl', hfst, hnd, hdata, hr', hexp⟩ := represents_tick cur hr
  have hiff := tick_calls_iff hr hs hfst hdata
  have hcalls : CallsOf p (.tick cur) calls := by
    refine ⟨hnd, hiff, ?_⟩
    -- the calls follow the list, and the list is in expiry order
    have hsorted : (calls.map Prod.fst).Pairwise fun a b => l.expireOf a ≤ l.expireOf b := by
      rw [hfst]
      exact hs.sublist (List.takeWhile_sublist _)
    refine (List.pairwise_map.mp hsorted).imp ?_
    intro x y hxy ex ey hx hy
    rw [← (hr.of_some hx).2.1, ← (hr.of_some hy).2.1]
    exact hxy
  refine ⟨calls, l', hl', hcalls, _, pendStep_tick hcalls ▸ hr', ?_⟩
  rw [hexp]
  exact hs.sublist (List.dropWhile_sublist _)

/-- **Step lemma.** A legal operation on a sound list runs, makes the calls the table predicts,
and leaves a sound list for the next table. -/
theorem apply_sound {l : SortTimerLst α} {p : Pending α} {op : Op α} (h : Sound l p)
    (hl : Legal p op) :
    ∃ calls l', apply l op = some (calls, l') ∧ CallsOf p op calls ∧ Sound l' (pendStep p op) := by
  cases op with
  | add t e d =>
    have hlive : t ∉ l.live := by
      rw [h.live_iff, show p t = none from hl]
      simp
    obtain ⟨l', hl', hs'⟩ := sound_add e d h hl
    exact ⟨[], l', by simp [apply, hlive, hl'], rfl, hs'⟩
  | adjust t e =>
    obtain ⟨e₀, d, hp, hle⟩ := hl
    obtain ⟨l', hl', hs'⟩ := sound_adjust h hp hle
    refine ⟨[], l', by simp [apply, hl'], rfl, ?_⟩
    simpa [pendStep, hp] using hs'
  | del t =>
    obtain ⟨e, d, hp⟩ := hl
    obtain ⟨l', hl', hs'⟩ := sound_del h hp
    exact ⟨[], l', by simp [apply, hl'], rfl, hs'⟩
  | tick cur => exact sound_tick cur h

-- ---------------------------------------------------------------------------
-- Whole runs
-- ---------------------------------------------------------------------------

theorem exec_append {l : SortTimerLst α} {ops ops' : List (Op α)} :
    exec l (ops ++ ops') = (exec l ops).bind fun r =>
      (exec r.2 ops').map fun r' => (r.1 ++ r'.1, r'.2) := by
  induction ops generalizing l with
  | nil => simp [exec]
  | cons op ops ih =>
    rw [List.cons_append, exec, exec]
    cases h : apply l op with
    | none => rfl
    | some r =>
      simp only [Option.bind_eq_bind, Option.bind_some, ih]
      cases h' : exec r.2 ops with
      | none => rfl
      | some r' =>
        simp only [Option.bind_some]
        cases exec r'.2 ops' <;> simp

/-- **Run lemma.** A legal run is executed to its end: the list it leaves is sound for `pending`,
and the calls of each operation are those its table predicts. -/
theorem exec_spec (garbage : Addr → UtilTimer α) (ops : List (Op α)) (h : LegalRun ops) :
    ∃ calls l, exec (empty garbage) ops = some (calls, l) ∧ Sound l (pending ops) ∧
      calls.length = ops.length ∧
      ∀ pre op post, ops = pre ++ op :: post →
        ∃ c, calls[pre.length]? = some c ∧ CallsOf (pending pre) op c := by
  induction ops using List.reverseRecOn with
  | nil =>
    refine ⟨[], empty garbage, rfl, ⟨[], represents_empty garbage, List.Pairwise.nil⟩, rfl, ?_⟩
    intro pre op post e
    simp at e
  | append_singleton ops op ih =>
    obtain ⟨calls, l, hex, hs, hlen, hcalls⟩ := ih h.of_append
    obtain ⟨c, l', hap, hc, hs'⟩ := apply_sound hs h.last
    refine ⟨calls ++ [c], l', ?_, by rwa [pending_concat], by simp [hlen], ?_⟩
    · rw [exec_append, hex]
      simp [exec, hap]
    · intro pre op' post e
      rcases List.eq_nil_or_concat post with rfl | ⟨post', x, rfl⟩
      · -- the last operation
        obtain ⟨rfl, e⟩ := List.append_inj' e rfl
        obtain rfl : op = op' := by simpa using e
        exact ⟨c, by simp [← hlen], hc⟩
      · rw [List.concat_eq_append, ← List.cons_append, ← List.append_assoc] at e
        obtain ⟨rfl, -⟩ := List.append_inj' e rfl
        obtain ⟨c', hc', hcp⟩ := hcalls pre op' post' rfl
        refine ⟨c', ?_, hcp⟩
        rw [List.getElem?_append_left]
        · exact hc'
        · exact (List.getElem?_eq_some_iff.mp hc').1

-- ---------------------------------------------------------------------------
-- The links after a run
-- ---------------------------------------------------------------------------

/-- Following `next` from `head` visits exactly `xs`, following `prev` goes back the same way,
and `tail` is the last node whenever there is one. -/
structure IsChain (l : SortTimerLst α) (xs : List Addr) : Prop where
  head : l.head = xs.head?
  next : ∀ (i : Nat) (hi : i < xs.length), (l.node xs[i]).next = xs[i + 1]?
  prev : ∀ (i : Nat) (hi : i + 1 < xs.length), (l.node xs[i + 1]).prev = xs[i]?
  headPrev : ∀ a, l.head = some a → (l.node a).prev = none
  tail : ∀ a, l.head = some a → l.tail = xs.getLast?

theorem linked_isChain {l : SortTimerLst α} {xs : List Addr} (h : Linked l xs) : IsChain l xs where
  head := h.head
  next := by
    intro i hi
    have := h.seg.next_eq i hi
    simpa [nextOf] using this
  prev := fun i hi => h.seg.prev_eq i hi
  headPrev := by
    intro a ha
    refine h.seg.prev_head a ?_
    rw [← h.head, ha]
    rfl
  tail := by
    intro a ha
    refine h.tail ?_
    rintro rfl
    rw [h.head] at ha
    simp at ha

/-- The links determine the sequence. -/
theorem IsChain.unique {l : SortTimerLst α} {xs ys : List Addr} (hx : IsChain l xs)
    (hy : IsChain l ys) : xs = ys := by
  have hnext {zs : List Addr} (hz : IsChain l zs) (i : Nat) :
      zs[i + 1]? = zs[i]?.bind fun a => (l.node a).next := by
    by_cases hi : i < zs.length
    · rw [List.getElem?_eq_getElem hi, Option.bind_some, hz.next i hi]
    · rw [List.getElem?_eq_none (by omega), List.getElem?_eq_none (by omega), Option.bind_none]
  refine List.ext_getElem? fun i => ?_
  induction i with
  | zero => rw [← List.head?_eq_getElem?, ← List.head?_eq_getElem?, ← hx.head, ← hy.head]
  | succ i ih => rw [hnext hx, hnext hy, ih]

/-- A sound list, as its chain of links: the nodes of the table, in expiry order. -/
theorem sound_chain {l : SortTimerLst α} {p : Pending α} (h : Sound l p) :
    ∃ xs, IsChain l xs ∧ xs.Nodup ∧ (∀ a, a ∈ xs ↔ ∃ e d, p a = some (e, d)) ∧
      (∀ a ∈ xs, p a = some ((l.node a).expire, (l.node a).userData)) ∧
      xs.Pairwise fun a b => (l.node a).expire ≤ (l.node b).expire := by
  obtain ⟨xs, hr, hs⟩ := h
  refine ⟨xs, linked_isChain hr.linked, hr.linked.nodup, ?_, ?_, hs⟩
  · intro a
    rw [hr.mem_iff, Option.isSome_iff_exists]
    constructor
    · rintro ⟨⟨e, d⟩, hp⟩
      exact ⟨e, d, hp⟩
    · rintro ⟨e, d, hp⟩
      exact ⟨(e, d), hp⟩
  · intro a ha
    rw [hr.table, if_pos ha]
    rfl

/-- **The list is well formed after every run.** The nodes reached from `head` are the timers
added and neither deleted nor expired, each once and in non-decreasing expiry order, and every
link, `head` and `tail` agree with that sequence. -/
theorem list_well_formed (garbage : Addr → UtilTimer α) (ops : List (Op α)) (h : LegalRun ops) :
    ∃ calls l xs, exec (empty garbage) ops = some (calls, l) ∧ IsChain l xs ∧ xs.Nodup ∧
      (∀ a, a ∈ xs ↔ ∃ e d, pending ops a = some (e, d)) ∧
      (∀ a ∈ xs, pending ops a = some ((l.node a).expire, (l.node a).userData)) ∧
      xs.Pairwise fun a b => (l.node a).expire ≤ (l.node b).expire := by
  obtain ⟨calls, l, hex, hs, -, -⟩ := exec_spec garbage ops h
  obtain ⟨xs, hxs⟩ := sound_chain hs
  exact ⟨calls, l, xs, hex, hxs⟩

/-- A run that uses every operation: two timers, the first re-scheduled past the second, the
second expired by a tick, a third added and deleted. -/
def sampleRun : List (Op Nat) :=
  [.add 1 10 100, .add 2 20 200, .adjust 1 30, .tick 20, .add 2 40 300, .del 2]

theorem sampleRun_legal : LegalRun sampleRun := by
  have h₁ : LegalRun [Op.add 1 10 100] := legalRun_nil.concat rfl
  have h₂ : LegalRun [Op.add 1 10 100, Op.add 2 20 200] := h₁.concat rfl
  have h₃ : LegalRun [Op.add 1 10 100, Op.add 2 20 200, Op.adjust 1 30] :=
    h₂.concat ⟨10, 100, rfl, by decide⟩
  have h₄ : LegalRun [Op.add 1 10 100, Op.add 2 20 200, Op.adjust 1 30, Op.tick 20] :=
    h₃.concat trivial
  have h₅ : LegalRun [Op.add 1 10 100, Op.add 2 20 200, Op.adjust 1 30, Op.tick 20,
      Op.add 2 40 300] := h₄.concat rfl
  exact h₅.concat ⟨40, 300, rfl⟩

theorem list_well_formed_sampleRun :
    ∃ calls l xs, exec (empty fun _ => ⟨0, 0, none, none⟩) sampleRun = some (calls, l) ∧
      IsChain l xs ∧ xs.Nodup ∧
      (∀ a, a ∈ xs ↔ ∃ e d, pending sampleRun a = some (e, d)) ∧
      (∀ a ∈ xs, pending sampleRun a = some ((l.node a).expire, (l.node a).userData)) ∧
      xs.Pairwise fun a b => (l.node a).expire ≤ (l.node b).expire :=
  list_well_formed _ sampleRun sampleRun_legal

end TinyHTTP.Timer
