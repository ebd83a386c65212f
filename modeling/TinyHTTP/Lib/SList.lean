import Mathlib.Data.List.Basic
import Mathlib.Logic.Function.Basic

/-!
# TinyHTTP — singly linked lists

A list of nodes that are linked by a `next` pointer, from a head to a NULL.

* `chain_snoc` — a node hung behind the last one.
* `chain_tail` — the list behind its first node.
-/

namespace TinyHTTP.Lib

variable {A : Type*} {next next' : A → Option A}

/-- From `head` on, the `next` pointers lead through `nodes` and end in NULL. -/
def Chain (next : A → Option A) : Option A → List A → Prop
  | head, [] => head = none
  | head, a :: nodes => head = some a ∧ Chain next (next a) nodes

theorem chain_head {head : Option A} {nodes : List A} (h : Chain next head nodes) :
    head = nodes.head? := by
  cases nodes with
  | nil => exact h
  | cons a nodes => exact h.1

theorem chain_tail {a : A} {head : Option A} {nodes : List A} (h : Chain next head (a :: nodes)) :
    Chain next (next a) nodes := h.2

/-- Only the pointers of the nodes matter. -/
theorem chain_congr {head : Option A} {nodes : List A} (h : Chain next head nodes)
    (hnext : ∀ a ∈ nodes, next' a = next a) : Chain next' head nodes := by
  induction nodes generalizing head with
  | nil => exact h
  | cons a nodes ih =>
    refine ⟨h.1, ?_⟩
    rw [hnext a (List.mem_cons_self ..)]
    exact ih h.2 fun b hb => hnext b (List.mem_cons_of_mem _ hb)

/-- The first node of an empty list. -/
theorem chain_singleton {p : A} (hp : next p = none) : Chain next (some p) [p] := ⟨rfl, hp⟩

/-- A node hung behind the last one. -/
theorem chain_snoc [DecidableEq A] {head : Option A} {nodes : List A} {t p : A}
    (h : Chain next head nodes) (ht : nodes.getLast? = some t) (hnodup : nodes.Nodup)
    (hp : next p = none) (hne : p ∉ nodes) :
    Chain (Function.update next t (some p)) head (nodes ++ [p]) := by
  induction nodes generalizing head with
  | nil => cases ht
  | cons a nodes ih =>
    obtain ⟨rfl, h⟩ := h
    have hpt : p ≠ t := fun he => hne (he ▸ List.mem_of_getLast? ht)
    cases nodes with
    | nil =>
      obtain rfl : a = t := by simpa using ht
      refine ⟨rfl, ?_⟩
      rw [Function.update_self]
      exact chain_singleton ((Function.update_of_ne hpt ..).trans hp)
    | cons b nodes =>
      rw [List.getLast?_cons_cons] at ht
      have hat : a ≠ t := by
        rintro rfl
        exact (List.nodup_cons.mp hnodup).1 (List.mem_of_getLast? ht)
      refine ⟨rfl, ?_⟩
      rw [Function.update_of_ne hat]
      exact ih h ht (List.nodup_cons.mp hnodup).2 fun hb => hne (List.mem_cons_of_mem _ hb)

end TinyHTTP.Lib
