import TinyHTTP.Timer.Runs

/-!
# TinyHTTP — when a timer fires

The life of one timer within a run, read off the operations: from its `add`
until its node is used again. `pending_life` says what the table of pending
timers holds for it at each point; with `exec_spec` this gives the law that
ties every callback to one tick.

* `pending_life` — pending exactly until deleted or due at a tick.
* `firing_law` — which operation calls which timer, and in which order.
-/

namespace TinyHTTP.Timer

open TinyHTTP.Lib SortTimerLst

variable {α : Type}

-- ---------------------------------------------------------------------------
-- The life of one timer
-- ---------------------------------------------------------------------------

/-- The expiry of timer `t`, added with `e`, after the operations `mid`. -/
def expireAfter (t : Addr) (e : Int) (mid : List (Op α)) : Int :=
  mid.foldl (fun e op => match op with
    | .adjust t' e' => if t' = t then e' else e
    | _ => e) e

/-- No tick among `mid` reached the expiry that timer `t`, added with `e`, had at the time. -/
def NotYetDue (t : Addr) (e : Int) (mid : List (Op α)) : Prop :=
  ∀ m₁ cur m₂, mid = m₁ ++ .tick cur :: m₂ → cur < expireAfter t e m₁

@[simp] theorem expireAfter_concat (t : Addr) (e : Int) (mid : List (Op α)) (op : Op α) :
    expireAfter t e (mid ++ [op]) = match op with
      | .adjust t' e' => if t' = t then e' else expireAfter t e mid
      | _ => expireAfter t e mid := by
  simp only [expireAfter, List.foldl_append, List.foldl_cons, List.foldl_nil]

theorem notYetDue_concat {t : Addr} {e : Int} {mid : List (Op α)} {op : Op α} :
    NotYetDue t e (mid ++ [op]) ↔
      NotYetDue t e mid ∧ ∀ cur, op = .tick cur → cur < expireAfter t e mid := by
  constructor
  · intro h
    refine ⟨?_, ?_⟩
    · rintro m₁ cur m₂ rfl
      exact h m₁ cur (m₂ ++ [op]) (by simp)
    · rintro cur rfl
      exact h mid cur [] rfl
  · rintro ⟨h, hop⟩ m₁ cur m₂ e'
    rcases List.eq_nil_or_concat m₂ with rfl | ⟨m₂', x, rfl⟩
    · obtain ⟨rfl, e'⟩ := List.append_inj' e' rfl
      exact hop cur (by simpa using e')
    · rw [List.concat_eq_append, ← List.cons_append, ← List.append_assoc] at e'
      obtain ⟨rfl, -⟩ := List.append_inj' e' rfl
      exact h m₁ cur m₂' rfl

/-- **The life of a timer.** As long as its node is not used again, a timer is pending exactly
until it is deleted or becomes due at a tick, under the expiry it was last given. -/
theorem pending_life {pre : List (Op α)} {t : Addr} {e : Int} {d : α} (mid : List (Op α))
    (h : LegalRun (pre ++ .add t e d :: mid)) (hadd : ∀ e' d', .add t e' d' ∉ mid) (v : Int)
    (d' : α) :
    pending (pre ++ .add t e d :: mid) t = some (v, d') ↔
      (.del t ∉ mid ∧ NotYetDue t e mid) ∧ v = expireAfter t e mid ∧ d' = d := by
  induction mid using List.reverseRecOn generalizing v d' with
  | nil =>
    have hdue : NotYetDue t e ([] : List (Op α)) := fun m₁ cur m₂ e => by simp at e
    simp [pendStep, expireAfter, hdue, eq_comm]
  | append_singleton mid op ih =>
    have happ : pre ++ .add t e d :: (mid ++ [op]) = (pre ++ .add t e d :: mid) ++ [op] := by simp
    rw [happ] at h
    have hlast := h.last
    replace ih := ih h.of_append fun e' d' hm => hadd e' d' (by simp [hm])
    rw [happ, pending_concat, notYetDue_concat]
    cases op with
    | add t' e' d'' =>
      -- another node: `t` itself is not added again
      have ht : t ≠ t' := by
        rintro rfl
        exact hadd e' d'' (by simp)
      simp [pendStep, ht, ih]
    | adjust t' e' =>
      by_cases ht : t' = t
      · subst ht
        obtain ⟨e₀, d₀, hp, -⟩ := hlast
        obtain ⟨hal, -, rfl⟩ := (ih e₀ d₀).mp hp
        simp only [pendStep, Function.update_self, hp, expireAfter_concat]
        simp only [Option.map_some, Option.some.injEq, Prod.mk.injEq, if_true]
        constructor
        · rintro ⟨rfl, rfl⟩
          simp [hal.1, hal.2]
        · rintro ⟨-, rfl, rfl⟩
          simp
      · simp [pendStep, Function.update_of_ne (Ne.symm ht), ih, ht]
    | del t' =>
      by_cases ht : t' = t
      · subst ht
        simp [pendStep]
      · have hne : (Op.del t : Op α) ≠ .del t' := fun e => ht (by cases e; rfl)
        simp [pendStep, Function.update_of_ne (Ne.symm ht), ih, hne]
    | tick cur =>
      show ((pending (pre ++ .add t e d :: mid) t).filter fun x => cur < x.1) = some (v, d') ↔ _
      rw [Option.filter_eq_some_iff, ih]
      simp only [decide_eq_true_eq, List.mem_append, List.mem_singleton, reduceCtorEq, or_false,
        Op.tick.injEq, forall_eq', expireAfter_concat]
      constructor
      · rintro ⟨⟨⟨h1, h2⟩, rfl, rfl⟩, h4⟩
        exact ⟨⟨h1, h2, h4⟩, rfl, rfl⟩
      · rintro ⟨⟨h1, h2, h4⟩, rfl, rfl⟩
        exact ⟨⟨⟨h1, h2⟩, rfl, rfl⟩, h4⟩

/-- A pending timer was added at some point of the run, and its node was not used again. -/
theorem pending_added {ops : List (Op α)} {t : Addr} {v : Int} {d : α}
    (hp : pending ops t = some (v, d)) :
    ∃ pre e life, ops = pre ++ .add t e d :: life ∧ ∀ e' d', .add t e' d' ∉ life := by
  induction ops using List.reverseRecOn generalizing v with
  | nil => simp [pending] at hp
  | append_singleton ops op ih =>
    rw [pending_concat] at hp
    -- in every case but the addition of `t` itself, `t` was pending before
    have hstep : (∃ v', pending ops t = some (v', d)) → (∀ e' d', op ≠ .add t e' d') →
        ∃ pre e life, ops ++ [op] = pre ++ .add t e d :: life ∧ ∀ e' d', .add t e' d' ∉ life := by
      rintro ⟨v', hv'⟩ hop
      obtain ⟨pre, e, life, rfl, hlife⟩ := ih hv'
      refine ⟨pre, e, life ++ [op], by simp, ?_⟩
      intro e' d' hm
      rw [List.mem_append, List.mem_singleton] at hm
      rcases hm with hm | hm
      · exact hlife e' d' hm
      · exact hop e' d' hm.symm
    cases op with
    | add t' e' d' =>
      by_cases ht : t = t'
      · subst ht
        simp only [pendStep, Function.update_self, Option.some.injEq, Prod.mk.injEq] at hp
        obtain ⟨rfl, rfl⟩ := hp
        exact ⟨ops, e', [], rfl, by simp⟩
      · rw [pendStep, Function.update_of_ne ht] at hp
        refine hstep ⟨v, hp⟩ ?_
        rintro e'' d'' h
        cases h
        exact ht rfl
    | adjust t' e' =>
      refine hstep ?_ (by simp)
      by_cases ht : t = t'
      · subst ht
        rw [pendStep, Function.update_self, Option.map_eq_some_iff] at hp
        obtain ⟨⟨v', d'⟩, hv', h⟩ := hp
        cases h
        exact ⟨v', hv'⟩
      · rw [pendStep, Function.update_of_ne ht] at hp
        exact ⟨v, hp⟩
    | del t' =>
      refine hstep ?_ (by simp)
      by_cases ht : t = t'
      · subst ht
        simp [pendStep] at hp
      · rw [pendStep, Function.update_of_ne ht] at hp
        exact ⟨v, hp⟩
    | tick cur =>
      refine hstep ?_ (by simp)
      rw [pendStep, Option.filter_eq_some_iff] at hp
      exact ⟨v, hp.1⟩

-- ---------------------------------------------------------------------------
-- The firing law
-- ---------------------------------------------------------------------------

/-- The operation at position `k` called the callback of timer `t` with user data `d`. -/
def CalledAt (calls : List (List (Addr × α))) (k : Nat) (t : Addr) (d : α) : Prop :=
  ∃ c, calls[k]? = some c ∧ (t, d) ∈ c

/-- The tick at position `j` of a timer's life is the one that fires it: the timer was not
deleted before, no earlier tick reached its expiry, and this one does. -/
def FiresAt (t : Addr) (e : Int) (life : List (Op α)) (j : Nat) : Prop :=
  ∃ cur, life[j]? = some (.tick cur) ∧ .del t ∉ life.take j ∧ NotYetDue t e (life.take j) ∧
    expireAfter t e (life.take j) ≤ cur

/-- The callbacks of a run, against the operations of the run. A *life* of timer `t` starts at an
`add` of its node and ends before the next one. -/
structure FiringLaw (ops : List (Op α)) (calls : List (List (Addr × α))) : Prop where
  length : calls.length = ops.length
  fires : ∀ pre t e d life rest, ops = pre ++ .add t e d :: (life ++ rest) →
    (∀ e' d', .add t e' d' ∉ life) → ∀ j < life.length, ∀ d',
      CalledAt calls (pre.length + 1 + j) t d' ↔ FiresAt t e life j ∧ d' = d
  once : ∀ pre t e d life rest, ops = pre ++ .add t e d :: (life ++ rest) →
    (∀ e' d', .add t e' d' ∉ life) → ∀ i < life.length, ∀ j < life.length, ∀ d' d'',
      CalledAt calls (pre.length + 1 + i) t d' → CalledAt calls (pre.length + 1 + j) t d'' → i = j
  onlyAdded : ∀ k t d, CalledAt calls k t d → ∃ pre e life rest,
    ops = pre ++ .add t e d :: (life ++ rest) ∧ (∀ e' d', .add t e' d' ∉ life) ∧
      ∃ j < life.length, k = pre.length + 1 + j
  nodup : ∀ (k : Nat) (c : List (Addr × α)), calls[k]? = some c → (c.map Prod.fst).Nodup
  ordered : ∀ pre op post, ops = pre ++ op :: post → ∀ c : List (Addr × α),
    calls[pre.length]? = some c → c.Pairwise fun x y => ∃ ex ey, pending pre x.1 = some (ex, x.2) ∧
      pending pre y.1 = some (ey, y.2) ∧ ex ≤ ey

theorem callsOf_mem {p : Pending α} {op : Op α} {c : List (Addr × α)} (h : CallsOf p op c)
    (t : Addr) (d : α) : (t, d) ∈ c ↔ ∃ cur e, op = .tick cur ∧ p t = some (e, d) ∧ e ≤ cur := by
  cases op with
  | tick cur =>
    rw [h.2.1]
    simp
  | add | adjust | del =>
    obtain rfl : c = [] := h
    simp

theorem callsOf_nodup {p : Pending α} {op : Op α} {c : List (Addr × α)} (h : CallsOf p op c) :
    (c.map Prod.fst).Nodup := by
  cases op with
  | tick cur => exact h.1
  | add | adjust | del =>
    obtain rfl : c = [] := h
    exact List.nodup_nil

theorem callsOf_ordered {p : Pending α} {op : Op α} {c : List (Addr × α)} (h : CallsOf p op c) :
    c.Pairwise fun x y =>
      ∃ ex ey, p x.1 = some (ex, x.2) ∧ p y.1 = some (ey, y.2) ∧ ex ≤ ey := by
  cases op with
  | tick cur =>
    refine List.Pairwise.imp_of_mem ?_ h.2.2
    intro x y hx hy hxy
    obtain ⟨ex, hex, -⟩ := (h.2.1 x.1 x.2).mp hx
    obtain ⟨ey, hey, -⟩ := (h.2.1 y.1 y.2).mp hy
    exact ⟨ex, ey, hex, hey, hxy ex ey hex hey⟩
  | add | adjust | del =>
    obtain rfl : c = [] := h
    exact List.Pairwise.nil

/-- A list, split at one of its positions. -/
theorem split_at {β : Type} (l : List β) {k : Nat} (hk : k < l.length) :
    l = l.take k ++ l[k] :: l.drop (k + 1) := by
  rw [List.getElem_cons_drop, List.take_append_drop]

/-- One position of a timer's life: it is called there exactly when that is where it fires. -/
theorem calledAt_iff {ops : List (Op α)} {calls : List (List (Addr × α))} (h : LegalRun ops)
    (hcalls : ∀ pre op post, ops = pre ++ op :: post →
      ∃ c, calls[pre.length]? = some c ∧ CallsOf (pending pre) op c)
    {pre : List (Op α)} {t : Addr} {e : Int} {d : α} {life rest : List (Op α)}
    (hops : ops = pre ++ .add t e d :: (life ++ rest)) (hadd : ∀ e' d', .add t e' d' ∉ life)
    {j : Nat} (hj : j < life.length) (d' : α) :
    CalledAt calls (pre.length + 1 + j) t d' ↔ FiresAt t e life j ∧ d' = d := by
  have hsplit : ops = (pre ++ .add t e d :: life.take j) ++
      life[j] :: (life.drop (j + 1) ++ rest) := by
    have hlife := split_at life hj
    calc ops = pre ++ .add t e d :: (life ++ rest) := hops
      _ = pre ++ .add t e d :: ((life.take j ++ life[j] :: life.drop (j + 1)) ++ rest) := by
          rw [← hlife]
      _ = _ := by simp only [List.append_assoc, List.cons_append]
  have hlen : (pre ++ .add t e d :: life.take j).length = pre.length + 1 + j := by
    simp
    omega
  obtain ⟨c, hc, hcp⟩ := hcalls _ _ _ hsplit
  rw [hlen] at hc
  have hlegal : LegalRun (pre ++ .add t e d :: life.take j) := by
    rw [hsplit] at h
    exact h.of_append
  have hadd' : ∀ e' d', .add t e' d' ∉ life.take j := fun e' d' hm =>
    hadd e' d' (List.mem_of_mem_take hm)
  have hpend := pending_life (life.take j) hlegal hadd'
  have hget : life[j]? = some life[j] := List.getElem?_eq_getElem hj
  constructor
  · rintro ⟨c', hc', hm⟩
    obtain rfl : c = c' := by simpa [hc] using hc'
    obtain ⟨cur, v, hop, hp, hle⟩ := (callsOf_mem hcp t d').mp hm
    obtain ⟨⟨hdel, hdue⟩, rfl, rfl⟩ := (hpend v d').mp hp
    exact ⟨⟨cur, by rw [hget, hop], hdel, hdue, hle⟩, rfl⟩
  · rintro ⟨⟨cur, hop, hdel, hdue, hle⟩, rfl⟩
    refine ⟨c, hc, (callsOf_mem hcp t d').mpr ⟨cur, expireAfter t e (life.take j), ?_, ?_, hle⟩⟩
    · rw [hget] at hop
      exact Option.some.inj hop
    · exact (hpend _ _).mpr ⟨⟨hdel, hdue⟩, rfl, rfl⟩

/-- A timer fires at no more than one position of its life. -/
theorem firesAt_unique {t : Addr} {e : Int} {life : List (Op α)} {i j : Nat}
    (hi : FiresAt t e life i) (hj : FiresAt t e life j) : i = j := by
  have key : ∀ {i j : Nat}, FiresAt t e life i → FiresAt t e life j → ¬ i < j := by
    rintro i j ⟨cur, hcur, -, -, hle⟩ ⟨-, -, -, hdue, -⟩ hij
    -- the tick at `i` is among the operations before `j`, and was due
    obtain ⟨hi, hget⟩ := List.getElem?_eq_some_iff.mp hcur
    have hsplit : life.take j = life.take i ++ .tick cur :: (life.take j).drop (i + 1) := by
      have hlt : i < (life.take j).length := by
        rw [List.length_take]
        omega
      have h := split_at (life.take j) hlt
      rwa [List.take_take, Nat.min_eq_left (Nat.le_of_lt hij), List.getElem_take, hget] at h
    have := hdue _ _ _ hsplit
    omega
  have h₁ := key hi hj
  have h₂ := key hj hi
  omega

/-- **The firing law.** In every legal run each timer is called at most once, never after its
deletion, and by exactly the first tick that reaches the expiry it has at the time; the calls of
one tick come in non-decreasing expiry order; and after every tick the timers still linked expire
later. -/
theorem firing_law (garbage : Addr → UtilTimer α) (ops : List (Op α)) (h : LegalRun ops) :
    ∃ calls l, exec (empty garbage) ops = some (calls, l) ∧ FiringLaw ops calls ∧
      ∀ pre cur post, ops = pre ++ .tick cur :: post →
        ∃ calls' l' xs, exec (empty garbage) (pre ++ [.tick cur]) = some (calls', l') ∧
          IsChain l' xs ∧ ∀ a ∈ xs, cur < (l'.node a).expire := by
  obtain ⟨calls, l, hex, -, hlen, hcalls⟩ := exec_spec garbage ops h
  have hcallsAt : ∀ k (hk : k < ops.length) c, calls[k]? = some c →
      CallsOf (pending (ops.take k)) ops[k] c := by
    intro k hk c hc
    obtain ⟨c', hc', hcp⟩ := hcalls _ _ _ (split_at ops hk)
    rw [List.length_take_of_le (Nat.le_of_lt hk), hc, Option.some.injEq] at hc'
    exact hc' ▸ hcp
  refine ⟨calls, l, hex, ⟨hlen, ?_, ?_, ?_, ?_, ?_⟩, ?_⟩
  · intro pre t e d life rest hops hadd j hj d'
    exact calledAt_iff h hcalls hops hadd hj d'
  · intro pre t e d life rest hops hadd i hi j hj d' d'' hci hcj
    exact firesAt_unique ((calledAt_iff h hcalls hops hadd hi d').mp hci).1
      ((calledAt_iff h hcalls hops hadd hj d'').mp hcj).1
  · rintro k t d ⟨c, hc, hm⟩
    have hk : k < ops.length := hlen ▸ (List.getElem?_eq_some_iff.mp hc).1
    obtain ⟨cur, e', hop, hp, -⟩ := (callsOf_mem (hcallsAt k hk c hc) t d).mp hm
    obtain ⟨pre, e, life, hpre, hadd⟩ := pending_added hp
    refine ⟨pre, e, life ++ [ops[k]], ops.drop (k + 1), ?_, ?_, life.length, by simp, ?_⟩
    · have := split_at ops hk
      rw [hpre] at this
      simpa using this
    · intro e'' d' hm
      rw [List.mem_append, List.mem_singleton, hop] at hm
      rcases hm with hm | hm
      · exact hadd e'' d' hm
      · cases hm
    · have : (ops.take k).length = k := List.length_take_of_le (Nat.le_of_lt hk)
      rw [hpre] at this
      simp at this
      omega
  · intro k c hc
    have hk : k < ops.length := hlen ▸ (List.getElem?_eq_some_iff.mp hc).1
    exact callsOf_nodup (hcallsAt k hk c hc)
  · intro pre op post hops c hc
    obtain ⟨c', hc', hcp⟩ := hcalls pre op post hops
    obtain rfl : c' = c := by simpa [hc'] using hc
    exact callsOf_ordered hcp
  · rintro pre cur post rfl
    have hpre : LegalRun (pre ++ [.tick cur]) := by
      rw [← List.singleton_append, ← List.append_assoc] at h
      exact h.of_append
    obtain ⟨calls', l', hex', hs', -, -⟩ := exec_spec garbage _ hpre
    obtain ⟨xs, hchain, -, -, htable, -⟩ := sound_chain hs'
    refine ⟨calls', l', xs, hex', hchain, ?_⟩
    intro a ha
    have hp := htable a ha
    rw [pending_concat, pendStep, Option.filter_eq_some_iff] at hp
    simpa using hp.2

theorem firing_law_sampleRun :
    ∃ calls l, exec (empty fun _ => ⟨0, 0, none, none⟩) sampleRun = some (calls, l) ∧
      FiringLaw sampleRun calls ∧
      ∀ pre cur post, sampleRun = pre ++ .tick cur :: post →
        ∃ calls' l' xs, exec (empty fun _ => ⟨0, 0, none, none⟩) (pre ++ [.tick cur]) =
          some (calls', l') ∧ IsChain l' xs ∧ ∀ a ∈ xs, cur < (l'.node a).expire :=
  firing_law _ sampleRun sampleRun_legal

end TinyHTTP.Timer
