import Mathlib.Tactic.TypeStar

/-!
# TinyHTTP — data refinement

An object with operations, each of which returns a result or stops. Two objects whose
operations simulate each other, one step at a time, are not told apart by any
sequence of operations.

* `results_eq` — a simulation gives the same results.
-/

namespace TinyHTTP.Lib

variable {S A O R E : Type*}

/-- The results of a sequence of operations, up to the first one that stops. -/
def results (apply : S → O → Except E (S × R)) : S → List O → Except E (List R)
  | _, [] => .ok []
  | s, op :: ops =>
    match apply s op with
    | .ok (s', r) => (results apply s' ops).map (r :: ·)
    | .error e => .error e

/-- Two outcomes of one operation: the same result and related states, or the same stop. -/
inductive Alike (rel : S → A → Prop) : Except E (S × R) → Except E (A × R) → Prop
  | ok {s : S} {a : A} (r : R) (h : rel s a) : Alike rel (.ok (s, r)) (.ok (a, r))
  | stop (e : E) : Alike rel (.error e) (.error e)

/-- **Refinement.** Alike states stay alike, so the results of a whole run are the same. -/
theorem results_eq {rel : S → A → Prop} {apply : S → O → Except E (S × R)}
    {spec : A → O → Except E (A × R)}
    (hstep : ∀ s a op, rel s a → Alike rel (apply s op) (spec a op)) {s : S} {a : A}
    (h : rel s a) (ops : List O) : results apply s ops = results spec a ops := by
  induction ops generalizing s a with
  | nil => rfl
  | cons op ops ih =>
    have halike := hstep s a op h
    revert halike
    unfold results
    generalize apply s op = x, spec a op = y
    rintro (⟨r, h'⟩ | e)
    · exact congrArg (Except.map (r :: ·)) (ih h')
    · rfl

end TinyHTTP.Lib
