import Mathlib.Data.List.Perm.Basic
import Mathlib.Logic.Function.Basic
import Mathlib.Tactic.TypeStar

/-!
# TinyHTTP — a map that is loaded from rows

Rows of a key and a value make a map in two ways: a row replaces what the map has for
its key, or it does not. The first is how a table is loaded, and then the order of the
rows may matter.

* `firstWins_eq` — the first row for a key counts, if the map had nothing for it.
* `loaded_all_orders_iff` — what a key has however the rows are ordered.
-/

namespace TinyHTTP.Lib

variable {α κ β : Type*} [DecidableEq κ] {m : κ → Option β} {k : κ} {v : β}

/-- Every row replaces what the map has for its key. -/
def lastWins (m : κ → Option β) (rows : List (κ × β)) : κ → Option β :=
  rows.foldl (fun m row => Function.update m row.1 (some row.2)) m

/-- A row is taken if the map has nothing for its key. -/
def insertNew (m : κ → Option β) (row : κ × β) : κ → Option β :=
  match m row.1 with
  | some _ => m
  | none => Function.update m row.1 (some row.2)

def firstWins (m : κ → Option β) (rows : List (κ × β)) : κ → Option β := rows.foldl insertNew m

-- ---------------------------------------------------------------------------
-- The first row
-- ---------------------------------------------------------------------------

theorem firstWins_append (m : κ → Option β) (rows rows' : List (κ × β)) :
    firstWins m (rows ++ rows') = firstWins (firstWins m rows) rows' :=
  List.foldl_append

theorem insertNew_known {row : κ × β} (h : m row.1 = some v) : insertNew m row = m := by
  simp only [insertNew, h]

theorem insertNew_new {row : κ × β} (h : m row.1 = none) :
    insertNew m row = Function.update m row.1 (some row.2) := by
  simp only [insertNew, h]

theorem insertNew_of_ne {row : κ × β} (h : k ≠ row.1) : insertNew m row k = m k := by
  cases hrow : m row.1 with
  | some v => rw [insertNew_known hrow]
  | none => rw [insertNew_new hrow, Function.update_of_ne h]

theorem insertNew_old {row : κ × β} (h : m k = some v) : insertNew m row k = some v := by
  by_cases hk : k = row.1
  · subst hk
    rw [insertNew_known h, h]
  · rw [insertNew_of_ne hk, h]

theorem insertNew_self {row : κ × β} (h : m row.1 = none) : insertNew m row row.1 = some row.2 := by
  rw [insertNew_new h, Function.update_self]

/-- What the map has for a key stays; induction on the rows. -/
theorem firstWins_old {rows : List (κ × β)} (h : m k = some v) : firstWins m rows k = some v := by
  induction rows generalizing m with
  | nil => exact h
  | cons row rows ih => exact ih (insertNew_old h)

/-- **The first row for a key** counts, if the map had nothing for it; induction on the rows. -/
theorem firstWins_eq {n : κ → Option β} (h : m k = n k) (rows : List (κ × β)) :
    firstWins m rows k = firstWins n rows k := by
  induction rows generalizing m n with
  | nil => exact h
  | cons row rows ih =>
    refine ih ?_
    by_cases hk : k = row.1
    · subst hk
      cases hm : m row.1 with
      | some v => rw [insertNew_old hm, insertNew_old (h ▸ hm)]
      | none => rw [insertNew_self hm, insertNew_self (h ▸ hm)]
    · rw [insertNew_of_ne hk, insertNew_of_ne hk, h]

/-- A key that no row has. -/
theorem firstWins_other {rows : List (κ × β)} (h : ∀ row ∈ rows, row.1 ≠ k) :
    firstWins m rows k = m k := by
  induction rows generalizing m with
  | nil => rfl
  | cons row rows ih =>
    rw [List.forall_mem_cons] at h
    exact (ih h.2).trans (insertNew_of_ne h.1.symm)

-- ---------------------------------------------------------------------------
-- The last row
-- ---------------------------------------------------------------------------

theorem lastWins_cons (m : κ → Option β) (row : κ × β) (rows : List (κ × β)) :
    lastWins m (row :: rows) = lastWins (Function.update m row.1 (some row.2)) rows := rfl

theorem lastWins_concat (m : κ → Option β) (rows : List (κ × β)) (row : κ × β) :
    lastWins m (rows ++ [row]) row.1 = some row.2 := by
  rw [lastWins, List.foldl_append]
  exact Function.update_self ..

theorem lastWins_mem {rows : List (κ × β)} (h : lastWins m rows k = some v) :
    m k = some v ∨ (k, v) ∈ rows := by
  induction rows generalizing m with
  | nil => exact .inl h
  | cons row rows ih =>
    rw [lastWins_cons] at h
    rcases ih h with hrow | hmem
    · by_cases hk : k = row.1
      · subst hk
        rw [Function.update_self, Option.some.injEq] at hrow
        subst hrow
        exact .inr (List.mem_cons_self ..)
      · rw [Function.update_of_ne hk] at hrow
        exact .inl hrow
    · exact .inr (List.mem_cons_of_mem _ hmem)

/-- A key that a row has; induction on the rows. -/
theorem lastWins_isSome {rows : List (κ × β)} (h : (k, v) ∈ rows ∨ (m k).isSome) :
    (lastWins m rows k).isSome := by
  induction rows generalizing m with
  | nil => exact h.resolve_left List.not_mem_nil
  | cons row rows ih =>
    rw [lastWins_cons]
    refine ih ?_
    by_cases hk : k = row.1
    · subst hk
      exact .inr (by rw [Function.update_self]; rfl)
    · rw [Function.update_of_ne hk]
      refine h.imp_left fun hmem => (List.mem_cons.mp hmem).resolve_left ?_
      rintro rfl
      exact hk rfl

/-- No rows have a key with two values. -/
def OneEach (rows : List (κ × β)) : Prop :=
  ∀ k v v', (k, v) ∈ rows → (k, v') ∈ rows → v = v'

theorem OneEach.loaded_iff {rows : List (κ × β)} (h : OneEach rows) :
    lastWins (fun _ => none) rows k = some v ↔ (k, v) ∈ rows := by
  constructor
  · intro hv
    exact (lastWins_mem hv).resolve_left (Option.some_ne_none v).symm
  · intro hmem
    obtain ⟨v', hv'⟩ := Option.isSome_iff_exists.mp
      (lastWins_isSome (m := fun _ => none) (.inl hmem))
    have hmem' := (lastWins_mem hv').resolve_left (Option.some_ne_none v').symm
    rw [hv', h k v v' hmem hmem']

/-- **However the rows are ordered**, a key has a value: it has a row with it, and none with
another. -/
theorem loaded_all_orders_iff {f : α → κ × β} {rows : List α} :
    (∀ rows' : List α, rows'.Perm rows → lastWins (fun _ => none) (rows'.map f) k = some v) ↔
      (k, v) ∈ rows.map f ∧ ∀ v', (k, v') ∈ rows.map f → v' = v := by
  constructor
  · intro hall
    have hmem := (lastWins_mem (hall rows (.refl rows))).resolve_left (Option.some_ne_none v).symm
    refine ⟨hmem, fun v' hmem' => ?_⟩
    -- with the row of `v'` at the end, the key has `v'`
    obtain ⟨row, hrow, heq⟩ := List.mem_map.mp hmem'
    obtain ⟨front, rest, rfl⟩ := List.append_of_mem hrow
    have hlast := hall (front ++ rest ++ [row]) (by
      rw [List.append_assoc]
      exact List.Perm.append_left front (List.perm_append_singleton ..))
    rw [List.map_append, List.map_singleton, heq, lastWins_concat _ _ (k, v')] at hlast
    exact Option.some.inj hlast
  · rintro ⟨hmem, hone⟩ rows' hperm
    have hperm' := hperm.map f
    obtain ⟨v', hv'⟩ := Option.isSome_iff_exists.mp
      (lastWins_isSome (m := fun _ => none) (.inl (hperm'.mem_iff.mpr hmem)))
    have hmem' := (lastWins_mem hv').resolve_left (Option.some_ne_none v').symm
    rw [hv', hone v' (hperm'.mem_iff.mp hmem')]

/-- **The rows are the map**, however they are ordered. -/
theorem loaded_iff {f : α → κ × β} {rows : List α} :
    (∀ rows' : List α, rows'.Perm rows → lastWins (fun _ => none) (rows'.map f) = m) ↔
      ∀ k v, m k = some v ↔ (k, v) ∈ rows.map f := by
  constructor
  · intro hall k v
    constructor
    · intro hv
      have horders := @loaded_all_orders_iff α κ β _ k v f rows
      exact (horders.mp fun rows' hperm => by rw [hall rows' hperm, hv]).1
    · intro hmem
      obtain ⟨v', hv'⟩ := Option.isSome_iff_exists.mp
        (lastWins_isSome (m := fun _ => none) (.inl hmem))
      rw [hall rows (.refl rows)] at hv'
      have horders := @loaded_all_orders_iff α κ β _ k v' f rows
      have hone := (horders.mp fun rows' hperm => by rw [hall rows' hperm, hv']).2
      rw [hv', hone v hmem]
  · intro hgraph rows' hperm
    have hone : OneEach (rows'.map f) := by
      intro k v v' hmem hmem'
      rw [(hperm.map f).mem_iff, ← hgraph] at hmem hmem'
      exact Option.some.inj (hmem.symm.trans hmem')
    funext k
    refine Option.ext fun v => ?_
    rw [hone.loaded_iff, (hperm.map f).mem_iff, hgraph]

end TinyHTTP.Lib
