import Mathlib.Data.DFinsupp.WellFounded
import Mathlib.Logic.Relation

/-!
# Deterministic step machines

A machine is a partial step function `step : S → Option S`; it halts where the
step function has no value. This file holds the run vocabulary and the three
rules the program proofs use:

- `Steps.invariant_guarded`: what one step preserves under a guard, a run whose
  states all meet the guard preserves;
- `exists_halted`: a step that decreases a well-founded measure ends;
- `lex_of_le_of_lt`: the lexicographic descent of a vector of measures, which is
  how a call stack of loops terminates.

A recursive function that edits what its callers are still reading has no simple
description as a function of its arguments. As a machine, its state holds the call
that runs and the callers, each with the point at which it goes on, and what holds
between them is an invariant of the run.

`runFor` and `allFor` execute a run and check a test at each of its states, so
that a run on a fixed input is settled by evaluation: a step has one result, so
every state that can be reached is one of those that were executed, and has passed
the test (`allFor_sound`).
-/

namespace Jhalfs.Machine

universe u

variable {S : Type u} (step : S → Option S)

/-- The states a run from `a` visits, `a` itself among them. -/
def Steps : S → S → Prop := Relation.ReflTransGen fun s t => step s = some t

/-- The machine has stopped: there is no next state. -/
def Halted (s : S) : Prop := step s = none

variable {step}

theorem Steps.refl (a : S) : Steps step a a := Relation.ReflTransGen.refl

theorem Steps.tail {a b c : S} (h : Steps step a b) (hs : step b = some c) :
    Steps step a c := Relation.ReflTransGen.tail h hs

theorem Steps.head {a b c : S} (hs : step a = some b) (h : Steps step b c) :
    Steps step a c := Relation.ReflTransGen.head hs h

/-- The invariant rule: a property that every guarded step preserves holds all
along a run whose states meet the guard. -/
theorem Steps.invariant_guarded {P G : S → Prop} {a b : S}
    (hstep : ∀ s t, P s → G s → step s = some t → P t)
    (h : Steps step a b) (ha : P a) (hG : ∀ s, Steps step a s → G s) : P b := by
  induction h with
  | refl => exact ha
  | tail hab hs ih => exact hstep _ _ ih (hG _ hab) hs

/-- The invariant rule without a guard. -/
theorem Steps.invariant {P : S → Prop} {a b : S}
    (hstep : ∀ s t, P s → step s = some t → P t)
    (h : Steps step a b) (ha : P a) : P b :=
  Steps.invariant_guarded (G := fun _ => True) (fun s t hs _ => hstep s t hs) h ha
    fun _ _ => trivial

/-- A run that decreases a well-founded measure under an invariant halts. -/
theorem exists_halted {α : Type*} {r : α → α → Prop} (hr : WellFounded r)
    (μ : S → α) {P : S → Prop}
    (hstep : ∀ s t, P s → step s = some t → P t)
    (hdec : ∀ s t, P s → step s = some t → r (μ t) (μ s)) {a : S} (ha : P a) :
    ∃ b, Steps step a b ∧ Halted step b := by
  generalize hm : μ a = m
  induction m using hr.induction generalizing a with
  | _ m ih =>
    subst hm
    cases hs : step a with
    | none => exact ⟨a, Steps.refl a, hs⟩
    | some b =>
      obtain ⟨c, hbc, hc⟩ := ih _ (hdec a b ha hs) (hstep a b ha hs) rfl
      exact ⟨c, hbc.head hs, hc⟩

/-! ## Executing a run -/

/-- The state after at most `n` steps. -/
def runFor (step : S → Option S) : Nat → S → S
  | 0, s => s
  | n + 1, s =>
    match step s with
    | none => s
    | some t => runFor step n t

theorem steps_runFor : ∀ (n : Nat) (s : S), Steps step s (runFor step n s)
  | 0, s => Steps.refl s
  | n + 1, s => by
    unfold runFor
    cases hs : step s with
    | none => exact Steps.refl s
    | some t => exact (steps_runFor n t).head hs

/-- `p` holds at the states of the run, which halts within `n` steps. -/
def allFor (step : S → Option S) (p : S → Bool) : Nat → S → Bool
  | 0, _ => false
  | n + 1, s =>
    p s && match step s with
      | none => true
      | some t => allFor step p n t

theorem allFor_sound {p : S → Bool} :
    ∀ {n : Nat} {s t : S}, allFor step p n s = true → Steps step s t → p t = true
  | 0, _, _, h, _ => by cases h
  | n + 1, s, t, h, hst => by
    rw [allFor, Bool.and_eq_true] at h
    obtain ⟨hp, hrest⟩ := h
    rcases Relation.ReflTransGen.cases_head hst with rfl | ⟨u, hu, hut⟩
    · exact hp
    · rw [hu] at hrest
      exact allFor_sound hrest hut

/-! ## Descent of a vector of measures -/

/-- A vector decreases lexicographically when one component does and no earlier
component grows; later components are free. -/
theorem lex_of_le_of_lt {n : Nat} {α : Type*} [LinearOrder α] {f g : Fin n → α} {i : Fin n}
    (hle : ∀ j, j < i → f j ≤ g j) (hlt : f i < g i) :
    Pi.Lex (· < ·) (fun {_} => (· < ·)) f g := by
  induction i using WellFoundedLT.induction with
  | _ i ih =>
    by_cases h : ∃ j, j < i ∧ f j < g j
    · obtain ⟨j, hji, hj⟩ := h
      exact ih j hji (fun k hk => hle k (hk.trans hji)) hj
    · refine ⟨i, fun j hj => ?_, hlt⟩
      exact le_antisymm (hle j hj) (not_lt.mp fun hlt => h ⟨j, hj, hlt⟩)

theorem lex_wellFounded (n : Nat) (α : Type*) [LinearOrder α] [WellFoundedLT α] :
    WellFounded (Pi.Lex (ι := Fin n) (β := fun _ => α) (· < ·) fun {_} => (· < ·)) :=
  Pi.Lex.wellFounded _ fun _ => wellFounded_lt

end Jhalfs.Machine
