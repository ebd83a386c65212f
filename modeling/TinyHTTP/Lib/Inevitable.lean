import TinyHTTP.Lib.Run

/-!
# TinyHTTP — what every run comes to

A state from which no run can avoid a goal: it meets the goal, or it can make a step
and every step leads to such a state. So a run neither stops before the goal nor goes on
for ever without it.

* `Inevitable.of_rank` — a number that every step makes smaller, and a step at each state
  that is not a goal.
* `From.of_strategy` — a choice of steps that makes a number smaller reaches its target.
* `Inevitable.not_stuck` — where no goal is ever left, a run meets no other dead end.
-/

namespace TinyHTTP.Lib

variable {S L : Type*} {step : S → L → Option S} {goal : S → Prop}

/-- Every run from the state comes to a goal. -/
inductive Inevitable (step : S → L → Option S) (goal : S → Prop) : S → Prop
  | now {s : S} (h : goal s) : Inevitable step goal s
  | later {s : S} (can : ∃ l s', step s l = some s')
      (all : ∀ l s', step s l = some s' → Inevitable step goal s') : Inevitable step goal s

/-- The states that a state leads to. -/
def From (step : S → L → Option S) (s : S) : S → Prop :=
  Reachable (· = s) step fun _ _ => True

theorem From.refl (s : S) : From step s s := .init rfl

theorem From.next {s t u : S} {l : L} (h : From step s t) (hs : step t l = some u) :
    From step s u :=
  .step l h trivial hs

theorem From.trans {s t u : S} (hst : From step s t) (htu : From step t u) : From step s u := by
  induction htu with
  | init h => exact h ▸ hst
  | step l _ _ hs ih => exact ih.next hs

/-- What every step keeps holds of all that a state leads to. -/
theorem From.keeps {P : S → Prop} (hstep : ∀ s l s', P s → step s l = some s' → P s') {s t : S}
    (h : From step s t) (hs : P s) : P t :=
  h.invariant (fun _ heq => heq ▸ hs) fun _ _ _ hP _ hstep' => hstep _ _ _ hP hstep'

/-- A run cannot go on for ever, and does not stop. -/
theorem Inevitable.of_rank {rank : S → Nat → Prop}
    (hrank : ∀ s n, rank s n → goal s ∨ (∃ l s', step s l = some s') ∧
      ∀ l s', step s l = some s' → ∃ m < n, rank s' m) {s : S} {n : Nat} (h : rank s n) :
    Inevitable step goal s := by
  induction n using Nat.strongRecOn generalizing s with
  | _ n ih =>
    rcases hrank s n h with hgoal | ⟨hcan, hall⟩
    · exact .now hgoal
    · refine .later hcan fun l s' hs => ?_
      obtain ⟨m, hm, hs'⟩ := hall l s' hs
      exact ih m hm hs'

/-- The goal can be reached. -/
theorem Inevitable.reaches {s : S} (h : Inevitable step goal s) :
    ∃ t, From step s t ∧ goal t := by
  induction h with
  | now h => exact ⟨_, .refl _, h⟩
  | later can all ih =>
    obtain ⟨l, s', hs⟩ := can
    obtain ⟨t, ht, hgoal⟩ := ih l s' hs
    exact ⟨t, ((From.refl _).next hs).trans ht, hgoal⟩

/-- No run leaves the states from which the goal is inevitable, when none leaves the goal. -/
theorem Inevitable.from (hstable : ∀ s l s', goal s → step s l = some s' → goal s') {s t : S}
    (h : Inevitable step goal s) (ht : From step s t) : Inevitable step goal t := by
  refine ht.keeps (fun s l s' h hs => ?_) h
  cases h with
  | now h => exact .now (hstable s l s' h hs)
  | later _ all => exact all l s' hs

/-- A dead end is a goal. -/
theorem Inevitable.not_stuck (hstable : ∀ s l s', goal s → step s l = some s' → goal s') {s t : S}
    (h : Inevitable step goal s) (ht : From step s t) (hstuck : ∀ l, step t l = none) : goal t := by
  cases h.from hstable ht with
  | now h => exact h
  | later can _ =>
    obtain ⟨l, s', hs⟩ := can
    cases (hstuck l).symm.trans hs

/-- A way of choosing steps that makes a number smaller comes to its end. -/
theorem From.of_strategy {I target : S → Prop} {rank : S → Nat → Prop}
    (hstep : ∀ s n, I s → rank s n → target s ∨
      ∃ l s', step s l = some s' ∧ I s' ∧ ∃ m < n, rank s' m)
    {s : S} {n : Nat} (hI : I s) (h : rank s n) : ∃ t, From step s t ∧ target t := by
  induction n using Nat.strongRecOn generalizing s with
  | _ n ih =>
    rcases hstep s n hI h with htarget | ⟨l, s', hs, hI', m, hm, hrank⟩
    · exact ⟨s, .refl s, htarget⟩
    · obtain ⟨t, ht, htarget⟩ := ih m hm hI' hrank
      exact ⟨t, ((From.refl s).next hs).trans ht, htarget⟩

end TinyHTTP.Lib
