import Mathlib.Data.List.Basic

/-!
# Loops over a list of words

A `for` loop over words is a fold, and what it has still to do is the rest of
the list. An invariant may speak about that rest; it is enough that a step keeps
it in the states the loop goes through.

- `allAlong` is a test on every step of a loop, in the state that the step starts
  from. It can be evaluated, so that a condition on a run is settled for a fixed
  input by running the loop.
- `foldl_invariant` and `foldl_invariant_guarded`: **the invariant rules**, without
  a guard and with one that every step has to meet.
- `foldl_of_not_allAlong`: the rule of a loop with a step that does *not* meet the
  guard. What such a step leaves, and the later ones keep, is there at the end. With
  it a condition on the steps is shown to be necessary.
-/

namespace Jhalfs.Loop

universe u v

variable {α : Type u} {σ : Type v} {step : σ → α → σ}

/-- `ok` holds of every step of the loop, in the state the step starts from: a guard on
the whole run that can be computed. -/
def allAlong (step : σ → α → σ) (ok : σ → α → Bool) : List α → σ → Bool
  | [], _ => true
  | a :: as, s => ok s a && allAlong step ok as (step s a)

/-- The invariant rule of a loop whose steps all meet a guard. `I rest s` is the
invariant when the words `rest` are left. -/
theorem foldl_invariant_guarded {ok : σ → α → Bool} {I : List α → σ → Prop}
    (hstep : ∀ a rest s, I (a :: rest) s → ok s a = true → I rest (step s a))
    {as : List α} {s : σ} (h : I as s) (hok : allAlong step ok as s = true) :
    I [] (as.foldl step s) := by
  induction as generalizing s with
  | nil => exact h
  | cons a as ih =>
    rw [allAlong, Bool.and_eq_true] at hok
    exact ih (hstep a as s h hok.1) hok.2

/-- The invariant rule without a guard. -/
theorem foldl_invariant {I : List α → σ → Prop}
    (hstep : ∀ a rest s, I (a :: rest) s → I rest (step s a)) {as : List α} {s : σ}
    (h : I as s) : I [] (as.foldl step s) := by
  induction as generalizing s with
  | nil => exact h
  | cons a as ih => exact ih (hstep a as s h)

/-- The rule of a loop with a step that does not meet the guard: what such a step
leaves, and the later ones keep, is there at the end. -/
theorem foldl_of_not_allAlong {ok : σ → α → Bool} {I : List α → σ → Prop} {J : σ → Prop}
    (hstep : ∀ a rest s, I (a :: rest) s → I rest (step s a))
    (hfail : ∀ a rest s, I (a :: rest) s → ok s a = false → J (step s a))
    (hkeep : ∀ a rest s, I (a :: rest) s → J s → J (step s a)) {as : List α} {s : σ}
    (h : I as s) (hno : allAlong step ok as s = false) : J (as.foldl step s) := by
  induction as generalizing s with
  | nil => cases hno
  | cons a as ih =>
    rw [allAlong, Bool.and_eq_false_iff] at hno
    rcases hno with hno | hno
    · exact (foldl_invariant (I := fun rest s => I rest s ∧ J s)
        (fun a rest s hs => ⟨hstep a rest s hs.1, hkeep a rest s hs.1 hs.2⟩)
        ⟨hstep a as s h, hfail a as s h hno⟩).2
    · exact ih (hstep a as s h) hno

end Jhalfs.Loop
