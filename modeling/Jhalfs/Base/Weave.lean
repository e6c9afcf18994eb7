import Mathlib.Data.List.Induction

/-!
# Pieces put into a text

A text into which pieces are put: the piece in front of a character, or at the end, is a
function of the text before the place and the text after it (`weave`, `weaveAll`). So the
description of a rewriting is a function from places to pieces, and two rewritings are
compared place by place.

- `weave_append` takes a text apart, and `weave_congr` says that the pieces at the places of
  a part decide: what stands before and after the part may be something else, if the pieces
  do not look at it.
- `weaveAll_congr`: functions that agree at all places of a text give the same result.
- `eq_of_weave_eq`: **the other way round, equal results have equal pieces**, when the
  pieces on which the functions disagree can be told from the character before them
  (`Apart`). The text is read from its end, where the two pieces stand beside each other.
- `count_weaveAll`: the characters of a result are counted by a sum over the places; equal
  sums of numbers of which one is never smaller have equal terms (`eq_of_totalAll_eq`).
-/

namespace Jhalfs.Text

universe u

variable {α : Type u}

/-- The text `s`, between the texts `b` and `a`, with a piece in front of each character. -/
def weave (f : List α → List α → List α) (b : List α) : List α → List α → List α
  | [], _ => []
  | c :: s, a => f b (c :: s ++ a) ++ c :: weave f (b ++ [c]) s a

/-- A whole text with its pieces, the one at its end included. -/
def weaveAll (f : List α → List α → List α) (s : List α) : List α :=
  weave f [] s [] ++ f s []

/-- The two texts `b` and `a` make `s`: a place in it. -/
abbrev Place (s b a : List α) : Prop := b ++ a = s

section Weave

variable {f g : List α → List α → List α}

theorem weave_append (b s t a : List α) :
    weave f b (s ++ t) a = weave f b s (t ++ a) ++ weave f (b ++ s) t a := by
  induction s generalizing b with
  | nil =>
    rw [List.append_nil]
    rfl
  | cons c s ih =>
    rw [List.cons_append, weave, weave, ih]
    simp only [List.append_assoc, List.cons_append, List.nil_append]

theorem weave_concat (b s a : List α) (c : α) :
    weave f b (s ++ [c]) a = weave f b s (c :: a) ++ (f (b ++ s) (c :: a) ++ [c]) := by
  rw [weave_append]
  rfl

/-- The pieces in front of the characters decide. -/
theorem weave_congr {b b' s a a' : List α}
    (h : ∀ p c q, s = p ++ c :: q → f (b ++ p) (c :: q ++ a) = g (b' ++ p) (c :: q ++ a')) :
    weave f b s a = weave g b' s a' := by
  induction s generalizing b b' with
  | nil => rfl
  | cons c s ih =>
    have hhere := h [] c s rfl
    rw [List.append_nil, List.append_nil] at hhere
    rw [weave, weave, hhere]
    refine congrArg (_ ++ c :: ·) (ih fun p d q hs => ?_)
    have hlater := h (c :: p) d q (by rw [hs]; rfl)
    rw [List.append_assoc, List.append_assoc]
    exact hlater

/-- Without pieces it is the text. -/
theorem weave_eq_self {b s a : List α}
    (h : ∀ p c q, s = p ++ c :: q → f (b ++ p) (c :: q ++ a) = []) : weave f b s a = s := by
  induction s generalizing b with
  | nil => rfl
  | cons c s ih =>
    have hhere := h [] c s rfl
    rw [List.append_nil] at hhere
    rw [weave, hhere, List.nil_append]
    refine congrArg (c :: ·) (ih fun p d q hs => ?_)
    have hlater := h (c :: p) d q (by rw [hs]; rfl)
    rw [List.append_assoc]
    exact hlater

theorem weaveAll_congr {s : List α} (h : ∀ b a, Place s b a → f b a = g b a) :
    weaveAll f s = weaveAll g s := by
  have hinner : weave f [] s [] = weave g [] s [] := by
    refine weave_congr fun p c q hs => ?_
    rw [List.append_nil]
    exact h _ _ hs.symm
  unfold weaveAll
  rw [hinner, h s [] (List.append_nil s)]

/-- One of the two pieces is the other one behind a text that does not end like the text
before the place. -/
def Apart (f g : List α → List α → List α) (b a : List α) : Prop :=
  ∃ j r, j.getLast? ≠ b.getLast? ∧ j ≠ [] ∧
    (f b a = j ++ r ∧ g b a = r ∨ f b a = r ∧ g b a = j ++ r)

theorem ne_of_getLast {x y j : List α} (hne : j ≠ []) (hlast : j.getLast? ≠ y.getLast?) :
    x ++ j ≠ y := by
  rintro rfl
  rw [List.getLast?_append] at hlast
  cases hj : j.getLast? with
  | none => exact hne (List.getLast?_eq_none_iff.mp hj)
  | some c =>
    rw [hj] at hlast
    exact hlast rfl

/-- **Equal results have equal pieces**, read from the end of the text: where no piece can be
taken for a part of the text, the places of the pieces can be told from the result. -/
theorem eq_of_weave_eq {s a : List α}
    (hapart : ∀ p q, Place s p q → f p (q ++ a) = g p (q ++ a) ∨ Apart f g p (q ++ a))
    (h : weave f [] s a ++ f s a = weave g [] s a ++ g s a) :
    ∀ p q, Place s p q → f p (q ++ a) = g p (q ++ a) := by
  induction s using List.reverseRecOn generalizing a with
  | nil =>
    rintro p q hpq
    obtain ⟨rfl, rfl⟩ := List.append_eq_nil_iff.mp hpq
    exact h
  | append_singleton s c ih =>
    have hlast : ∀ (k : List α → List α → List α), weave k [] (s ++ [c]) a =
        (weave k [] s (c :: a) ++ k s (c :: a)) ++ [c] := by
      intro k
      rw [weave_concat, List.nil_append, List.append_assoc]
    -- the pieces at the end are the same, as what is before them ends with the character
    have hend : f (s ++ [c]) a = g (s ++ [c]) a := by
      rcases hapart (s ++ [c]) [] (List.append_nil _) with heq | ⟨j, r, hj, hne, hcases⟩
      · exact heq
      · exfalso
        rw [List.getLast?_concat] at hj
        rw [List.nil_append] at hcases
        rcases hcases with ⟨hf, hg⟩ | ⟨hf, hg⟩
        · rw [hf, hg, ← List.append_assoc] at h
          refine ne_of_getLast hne ?_ (List.append_cancel_right h)
          rwa [hlast, List.getLast?_concat]
        · rw [hf, hg, ← List.append_assoc] at h
          refine ne_of_getLast hne ?_ (List.append_cancel_right h).symm
          rwa [hlast, List.getLast?_concat]
    rw [hend, hlast, hlast] at h
    have hrest := List.append_cancel_right (List.append_cancel_right h)
    intro p q hpq
    induction q using List.reverseRecOn with
    | nil =>
      rw [Place, List.append_nil] at hpq
      subst hpq
      exact hend
    | append_singleton q d _ =>
      rw [Place, ← List.append_assoc] at hpq
      obtain ⟨hpq', hd⟩ := List.append_inj' hpq rfl
      cases hd
      have hstep : ∀ p q, Place s p q →
          f p (q ++ c :: a) = g p (q ++ c :: a) ∨ Apart f g p (q ++ c :: a) := by
        intro p q hpq
        have hwide : Place (s ++ [c]) p (q ++ [c]) := by
          rw [Place, ← List.append_assoc, hpq]
        have hcase := hapart p (q ++ [c]) hwide
        rwa [List.append_assoc] at hcase
      have heq := ih hstep hrest p q hpq'
      rwa [List.append_assoc]

end Weave

/-! ## Sums over the places -/

/-- The sum over the places in front of the characters. -/
def total (n : List α → List α → Nat) (b : List α) : List α → List α → Nat
  | [], _ => 0
  | c :: s, a => n b (c :: s ++ a) + total n (b ++ [c]) s a

/-- The sum over all places. -/
def totalAll (n : List α → List α → Nat) (s : List α) : Nat := total n [] s [] + n s []

theorem total_add (m n : List α → List α → Nat) (b s a : List α) :
    total (fun b a => m b a + n b a) b s a = total m b s a + total n b s a := by
  induction s generalizing b with
  | nil => rfl
  | cons c s ih =>
    simp only [total, ih]
    omega

theorem totalAll_add (m n : List α → List α → Nat) (s : List α) :
    totalAll (fun b a => m b a + n b a) s = totalAll m s + totalAll n s := by
  simp only [totalAll, total_add]
  omega

theorem count_weave [DecidableEq α] (f : List α → List α → List α) (x : α) (b s a : List α) :
    (weave f b s a).count x = total (fun b a => (f b a).count x) b s a + s.count x := by
  induction s generalizing b with
  | nil => rfl
  | cons c s ih =>
    rw [weave, total, List.count_append, List.count_cons, List.count_cons, ih]
    omega

/-- A character is counted in the text and in the pieces. -/
theorem count_weaveAll [DecidableEq α] (f : List α → List α → List α) (x : α) (s : List α) :
    (weaveAll f s).count x = totalAll (fun b a => (f b a).count x) s + s.count x := by
  rw [weaveAll, totalAll, List.count_append, count_weave]
  omega

theorem total_le {m n : List α → List α → Nat} {b s a : List α}
    (hle : ∀ u c v, s = u ++ c :: v → n (b ++ u) (c :: v ++ a) ≤ m (b ++ u) (c :: v ++ a)) :
    total n b s a ≤ total m b s a := by
  induction s generalizing b with
  | nil => exact Nat.le_refl _
  | cons d s ih =>
    have hhere := hle [] d s rfl
    rw [List.append_nil] at hhere
    refine Nat.add_le_add hhere (ih fun u c v hs => ?_)
    have hlater := hle (d :: u) c v (by rw [hs]; rfl)
    rwa [List.append_assoc]

/-- Equal sums of numbers of which one is never smaller: the numbers are equal. -/
theorem eq_of_total_eq {m n : List α → List α → Nat} {b s a : List α}
    (hle : ∀ u c v, s = u ++ c :: v → n (b ++ u) (c :: v ++ a) ≤ m (b ++ u) (c :: v ++ a))
    (h : total m b s a ≤ total n b s a) :
    ∀ u c v, s = u ++ c :: v → m (b ++ u) (c :: v ++ a) = n (b ++ u) (c :: v ++ a) := by
  induction s generalizing b with
  | nil =>
    intro u c v hs
    simp at hs
  | cons d s ih =>
    have hhere := hle [] d s rfl
    rw [List.append_nil] at hhere
    have hrest : ∀ u c v, s = u ++ c :: v →
        n (b ++ [d] ++ u) (c :: v ++ a) ≤ m (b ++ [d] ++ u) (c :: v ++ a) := by
      intro u c v hs
      have hlater := hle (d :: u) c v (by rw [hs]; rfl)
      rwa [List.append_assoc]
    have htail := total_le hrest
    rw [total, total] at h
    intro u c v hs
    cases u with
    | nil =>
      obtain ⟨rfl, rfl⟩ := List.cons.inj hs
      rw [List.append_nil]
      omega
    | cons e u =>
      obtain ⟨rfl, hs'⟩ := List.cons.inj hs
      have hlater := ih hrest (by omega) u c v hs'
      rwa [List.append_assoc] at hlater

theorem eq_of_totalAll_eq {m n : List α → List α → Nat} {s : List α}
    (hle : ∀ b a, Place s b a → n b a ≤ m b a) (h : totalAll m s = totalAll n s) :
    ∀ b a, Place s b a → m b a = n b a := by
  have hinner : ∀ u c v, s = u ++ c :: v →
      n ([] ++ u) (c :: v ++ []) ≤ m ([] ++ u) (c :: v ++ []) := by
    intro u c v hs
    rw [List.append_nil]
    exact hle u (c :: v) hs.symm
  have hend := hle s [] (List.append_nil s)
  have htotal := total_le hinner
  rw [totalAll, totalAll] at h
  intro b a hplace
  cases a with
  | nil =>
    rw [Place, List.append_nil] at hplace
    subst hplace
    omega
  | cons c v =>
    have heq := eq_of_total_eq hinner (by omega) b c v hplace.symm
    rwa [List.append_nil] at heq

end Jhalfs.Text
