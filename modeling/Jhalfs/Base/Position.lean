import Mathlib.Data.List.Infix

/-!
# Positions in an ordered tree

A node of an ordered tree is named by the list of child numbers that leads to it
from the root, so that `l <+: m` says that `m` is at or below `l`.

- `LeftOf l m`: `l` is in a branch that leaves the path of `m` to the left, at
  some node above both.
- `Before l m` is the post-order: a node comes after everything below it and after
  everything below an earlier sibling of one of its ancestors.
- Both are asymmetric (`leftOf_asymm`, `before_asymm`): two positions that share a
  path and then differ are told apart where they differ first
  (`cons_eq_of_append_eq`).
- `before_of_above`: what is below `r` comes before `m` only if `r` does, unless
  `m` is below `r` as well. So a subtree that is removed as a whole is before a
  position, after it, or around it.
-/

namespace Jhalfs.Position

/-- `l` is in a branch that leaves the path of `m` to the left. -/
def LeftOf (l m : List Nat) : Prop :=
  ∃ p i j s t, i < j ∧ l = p ++ i :: s ∧ m = p ++ j :: t

/-- `l` comes before `m` in post-order. -/
def Before (l m : List Nat) : Prop :=
  (m <+: l ∧ m ≠ l) ∨ LeftOf l m

theorem leftOf_append {p s t : List Nat} {i j : Nat} (h : i < j) :
    LeftOf (p ++ i :: s) (p ++ j :: t) := ⟨p, i, j, s, t, h, rfl, rfl⟩

/-- Two lists that share a prefix and then differ are told apart where they
differ first. -/
theorem cons_eq_of_append_eq {p q s t : List Nat} {i j : Nat}
    (h : p ++ i :: s = q ++ j :: t) :
    (p = q ∧ i = j ∧ s = t) ∨ (p ++ [i] <+: q) ∨ (q ++ [j] <+: p) := by
  rcases List.append_eq_append_iff.mp h with ⟨a, hq, hi⟩ | ⟨a, hp, hj⟩
  · cases a with
    | nil =>
      simp only [List.nil_append, List.cons.injEq] at hi
      exact Or.inl ⟨by simpa using hq.symm, hi.1, hi.2⟩
    | cons b a =>
      simp only [List.cons_append, List.cons.injEq] at hi
      refine Or.inr (Or.inl ⟨a, ?_⟩)
      rw [hq, hi.1]
      simp
  · cases a with
    | nil =>
      simp only [List.nil_append, List.cons.injEq] at hj
      exact Or.inl ⟨by simpa using hp, hj.1.symm, hj.2.symm⟩
    | cons b a =>
      simp only [List.cons_append, List.cons.injEq] at hj
      refine Or.inr (Or.inr ⟨a, ?_⟩)
      rw [hp, hj.1]
      simp

theorem not_leftOf_of_above {l m : List Nat} (h : l <+: m) : ¬ LeftOf l m := by
  rintro ⟨p, i, j, s, t, hij, rfl, rfl⟩
  obtain ⟨u, hu⟩ := h
  rw [List.append_assoc, List.append_cancel_left_eq, List.cons_append, List.cons.injEq] at hu
  omega

theorem not_leftOf_of_below {l m : List Nat} (h : m <+: l) : ¬ LeftOf l m := by
  rintro ⟨p, i, j, s, t, hij, rfl, rfl⟩
  obtain ⟨u, hu⟩ := h
  rw [List.append_assoc, List.append_cancel_left_eq, List.cons_append, List.cons.injEq] at hu
  omega

theorem leftOf_asymm {l m : List Nat} (h : LeftOf l m) : ¬ LeftOf m l := by
  obtain ⟨p, i, j, s, t, hij, rfl, rfl⟩ := h
  rintro ⟨q, i', j', s', t', hij', hm, hl⟩
  rcases cons_eq_of_append_eq hl with ⟨rfl, rfl, rfl⟩ | hpre | hpre
  · rw [List.append_cancel_left_eq, List.cons.injEq] at hm
    omega
  · obtain ⟨u, rfl⟩ := hpre
    simp only [List.append_assoc, List.append_cancel_left_eq, List.cons_append,
      List.nil_append, List.cons.injEq] at hm
    omega
  · obtain ⟨u, rfl⟩ := hpre
    simp only [List.append_assoc, List.append_cancel_left_eq, List.cons_append,
      List.nil_append, List.cons.injEq] at hm
    omega

/-- Post-order is asymmetric. -/
theorem before_asymm {l m : List Nat} (h : Before l m) : ¬ Before m l := by
  rcases h with ⟨hml, hne⟩ | h
  · rintro (⟨hlm, -⟩ | h')
    · exact hne (hml.eq_of_length (Nat.le_antisymm hml.length_le hlm.length_le))
    · exact not_leftOf_of_above hml h'
  · rintro (⟨hlm, -⟩ | h')
    · exact not_leftOf_of_above hlm h
    · exact leftOf_asymm h h'

/-- What is below `r` comes before `m` only if `r` does, unless `m` is below `r`
as well. -/
theorem before_of_above {r l m : List Nat} (h : Before l m) (hrl : r <+: l)
    (hrm : ¬ r <+: m) : Before r m := by
  rcases h with ⟨hml, hne⟩ | ⟨p, i, j, s, t, hij, rfl, rfl⟩
  · rcases List.prefix_or_prefix_of_prefix hrl hml with h | h
    · exact absurd h hrm
    · exact Or.inl ⟨h, fun he => hrm (he ▸ List.prefix_rfl)⟩
  · rcases List.prefix_or_prefix_of_prefix hrl (List.prefix_append p (i :: s)) with h | h
    · exact absurd (h.trans (List.prefix_append _ _)) hrm
    · obtain ⟨u, rfl⟩ := h
      cases u with
      | nil =>
        rw [List.append_nil] at hrm
        exact absurd (List.prefix_append _ _) hrm
      | cons b u =>
        rw [List.prefix_append_right_inj, List.cons_prefix_cons] at hrl
        obtain ⟨rfl, -⟩ := hrl
        exact Or.inr (leftOf_append hij)

theorem leftOf_of_below {l m r : List Nat} (h : LeftOf l m) (hr : m <+: r) : LeftOf l r := by
  obtain ⟨p, i, j, s, t, hij, rfl, rfl⟩ := h
  obtain ⟨u, rfl⟩ := hr
  rw [List.append_assoc, List.cons_append]
  exact leftOf_append hij

theorem leftOf_prefix_left {l m r : List Nat} (h : LeftOf l m) (hr : l <+: r) : LeftOf r m := by
  obtain ⟨p, i, j, s, t, hij, rfl, rfl⟩ := h
  obtain ⟨u, rfl⟩ := hr
  rw [List.append_assoc, List.cons_append]
  exact leftOf_append hij

/-- A proper prefix of a list with one more element is a prefix of the list. -/
theorem prefix_of_concat {r l : List Nat} {k : Nat} (h : r <+: l ++ [k])
    (hne : r ≠ l ++ [k]) : r <+: l := by
  rcases List.prefix_concat_iff.mp h with rfl | h
  · exact absurd rfl hne
  · exact h

end Jhalfs.Position
