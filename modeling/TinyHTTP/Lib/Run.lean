import Mathlib.Logic.Function.Basic
import Mathlib.Tactic.TypeStar

/-!
# TinyHTTP — runs of a labelled transition function

A system is a partial function `step : S → L → Option S`: `none` says that the
label is not enabled, or that the step has no defined behaviour. `Reachable`
collects the states of the runs whose every step meets a condition `ok`.

* `Reachable.invariant` — what holds initially and is preserved by every step
  that meets the condition holds in every reachable state.
* `Reachable.of_run` — a run computed by `runSteps` ends in a reachable state.
* `Reachable.of_guarded` — the same, with a check of the condition along the way.
-/

namespace TinyHTTP.Lib

variable {S L : Type*}

/-- A value of an updated function is the new one or an old one. -/
theorem update_cases {ι β : Type*} [DecidableEq ι] {f : ι → β} {i j : ι} {a b : β}
    (h : Function.update f i a j = b) : j = i ∧ a = b ∨ j ≠ i ∧ f j = b := by
  by_cases hj : j = i
  · subst hj
    rw [Function.update_self] at h
    exact .inl ⟨rfl, h⟩
  · rw [Function.update_of_ne hj] at h
    exact .inr ⟨hj, h⟩

/-- The states of the runs from `init` whose steps all meet `ok`. -/
inductive Reachable (init : S → Prop) (step : S → L → Option S) (ok : S → L → Prop) : S → Prop
  | init {s : S} (h : init s) : Reachable init step ok s
  | step {s s' : S} (l : L) (hs : Reachable init step ok s) (hok : ok s l)
      (h : step s l = some s') : Reachable init step ok s'

/-- Take the steps one after another. -/
def runSteps (step : S → L → Option S) : S → List L → Option S
  | s, [] => some s
  | s, l :: ls => (step s l).bind fun s' => runSteps step s' ls

/-- A run is cut in two anywhere. -/
theorem runSteps_append (step : S → L → Option S) (s : S) (ls ls' : List L) :
    runSteps step s (ls ++ ls') = (runSteps step s ls).bind fun s' => runSteps step s' ls' := by
  induction ls generalizing s with
  | nil => rfl
  | cons l ls ih =>
    rw [List.cons_append, runSteps, runSteps]
    cases step s l with
    | none => rfl
    | some s' => exact ih s'

/-- The steps that pass a check. -/
def guarded (check : S → L → Bool) (step : S → L → Option S) (s : S) (l : L) : Option S :=
  if check s l then step s l else none

section
variable {init : S → Prop} {step : S → L → Option S} {ok : S → L → Prop}

/-- **Invariants.** What holds at the start, and is kept by every step that meets the condition. -/
theorem Reachable.invariant {P : S → Prop} (h0 : ∀ s, init s → P s)
    (hstep : ∀ s l s', P s → ok s l → step s l = some s' → P s') {s : S}
    (h : Reachable init step ok s) : P s := by
  induction h with
  | init h => exact h0 _ h
  | step l _ hok h ih => exact hstep _ l _ ih hok h

/-- A run whose labels meet the condition wherever they are taken. -/
theorem Reachable.of_run {s s' : S} {ls : List L} (hok : ∀ l ∈ ls, ∀ s, ok s l)
    (hs : Reachable init step ok s) (h : runSteps step s ls = some s') :
    Reachable init step ok s' := by
  induction ls generalizing s with
  | nil =>
    obtain rfl : s = s' := Option.some.inj h
    exact hs
  | cons l ls ih =>
    rw [runSteps, Option.bind_eq_some_iff] at h
    obtain ⟨t, ht, h⟩ := h
    have hl : ok s l := hok l (List.mem_cons_self ..) s
    exact ih (fun l' hl' => hok l' (List.mem_cons_of_mem _ hl')) (.step l hs hl ht) h

/-- A run that is checked as it goes. -/
theorem Reachable.of_guarded {check : S → L → Bool} (hcheck : ∀ s l, check s l = true → ok s l)
    {s s' : S} {ls : List L} (hs : Reachable init step ok s)
    (h : runSteps (guarded check step) s ls = some s') : Reachable init step ok s' := by
  induction ls generalizing s with
  | nil =>
    obtain rfl : s = s' := Option.some.inj h
    exact hs
  | cons l ls ih =>
    rw [runSteps, Option.bind_eq_some_iff] at h
    obtain ⟨t, ht, h⟩ := h
    unfold guarded at ht
    split at ht
    · rename_i hl
      exact ih (.step l hs (hcheck s l hl) ht) h
    · cases ht

end

end TinyHTTP.Lib
