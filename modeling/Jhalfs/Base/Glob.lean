import Mathlib.Data.List.Infix
import Mathlib.Data.Nat.Find

/-!
# Patterns of the shell

The expansions `${v#pattern}`, `${v##pattern}` and `${v%pattern}`, with patterns made of `*`,
`?` and characters.

- `matchesAll` says that a pattern matches a whole text, by recursion over the pattern; there is
  one lemma for each part (`matchesAll_star`, `matchesAll_any`, `matchesAll_lit`) and one for a
  word of characters (`matchesAll_lits_append`).
- The first two expansions remove the shortest and the longest beginning that the pattern
  matches, so what they leave is found by saying which beginnings match (`stripShortest_eq`,
  `stripLongest_eq`); for a pattern that begins with `*` these are the ones with a certain end
  (`matchesAll_star_lits`).
- `${v%pattern}` removes the shortest end, and is used to test whether there is one
  (`stripShortestEnd_eq_self_iff`).
- A `.*` of `sed` takes as much as it can: `greedy` is the longest beginning behind which the
  rest of the expression matches, and `greedy_eq_some_iff` says that it is this one.
-/

namespace Jhalfs.Text

/-- A part of a pattern. -/
inductive Glob where
  /-- `*` -/
  | star
  /-- `?` -/
  | any
  | lit (c : Char)

/-- The pattern matches the whole text. -/
def matchesAll : List Glob → List Char → Bool
  | [], s => s.isEmpty
  | .lit c :: p, s =>
    match s with
    | [] => false
    | d :: t => d == c && matchesAll p t
  | .any :: p, s =>
    match s with
    | [] => false
    | _ :: t => matchesAll p t
  | .star :: p, s => s.tails.any (matchesAll p)

/-- `${s#p}`. -/
def stripShortest (p : List Glob) (s : List Char) : List Char :=
  s.drop (((List.range (s.length + 1)).find? fun n => matchesAll p (s.take n)).getD 0)

/-- `${s##p}`. -/
def stripLongest (p : List Glob) (s : List Char) : List Char :=
  s.drop (Nat.findGreatest (fun n => matchesAll p (s.take n) = true) s.length)

/-- `${s%p}`. -/
def stripShortestEnd (p : List Glob) (s : List Char) : List Char :=
  s.take (((List.range (s.length + 1)).reverse.find? fun n => matchesAll p (s.drop n)).getD
    s.length)

theorem matchesAll_star (p : List Glob) (s : List Char) :
    matchesAll (.star :: p) s = true ↔ ∃ t, t <:+ s ∧ matchesAll p t = true := by
  rw [matchesAll, List.any_eq_true]
  simp only [List.mem_tails]

theorem matchesAll_nil (s : List Char) : matchesAll [] s = true ↔ s = [] := List.isEmpty_iff

theorem matchesAll_lit (c : Char) (p : List Glob) (s : List Char) :
    matchesAll (.lit c :: p) s = true ↔ ∃ t, s = c :: t ∧ matchesAll p t = true := by
  cases s with
  | nil => exact iff_of_false Bool.false_ne_true fun ⟨_, h, _⟩ => List.cons_ne_nil _ _ h.symm
  | cons d t =>
    rw [matchesAll, Bool.and_eq_true, beq_iff_eq]
    constructor
    · rintro ⟨rfl, h⟩
      exact ⟨t, rfl, h⟩
    · rintro ⟨t, heq, h⟩
      cases heq
      exact ⟨rfl, h⟩

theorem matchesAll_any (p : List Glob) (s : List Char) :
    matchesAll (.any :: p) s = true ↔ ∃ c t, s = c :: t ∧ matchesAll p t = true := by
  cases s with
  | nil => exact iff_of_false Bool.false_ne_true fun ⟨_, _, h, _⟩ => List.cons_ne_nil _ _ h.symm
  | cons d t =>
    rw [matchesAll]
    constructor
    · exact fun h => ⟨d, t, rfl, h⟩
    · rintro ⟨c, t, heq, h⟩
      cases heq
      exact h

theorem matchesAll_lits (w s : List Char) : matchesAll (w.map .lit) s = true ↔ s = w := by
  induction w generalizing s with
  | nil => exact matchesAll_nil s
  | cons c w ih =>
    rw [List.map_cons, matchesAll_lit]
    constructor
    · rintro ⟨t, rfl, h⟩
      rw [(ih t).mp h]
    · rintro rfl
      exact ⟨w, rfl, (ih w).mpr rfl⟩

theorem matchesAll_lits_append (w : List Char) (p : List Glob) (s : List Char) :
    matchesAll (w.map .lit ++ p) s = true ↔ ∃ t, s = w ++ t ∧ matchesAll p t = true := by
  induction w generalizing s with
  | nil => simp
  | cons c w ih =>
    rw [List.map_cons, List.cons_append, matchesAll_lit]
    constructor
    · rintro ⟨t, rfl, h⟩
      obtain ⟨u, rfl, hu⟩ := (ih t).mp h
      exact ⟨u, rfl, hu⟩
    · rintro ⟨u, rfl, hu⟩
      exact ⟨w ++ u, rfl, (ih _).mpr ⟨u, rfl, hu⟩⟩

/-- A word and `*`: the texts that begin with the word. -/
theorem matchesAll_lits_star (w s : List Char) :
    matchesAll (w.map .lit ++ [.star]) s = true ↔ w <+: s := by
  rw [matchesAll_lits_append]
  constructor
  · rintro ⟨t, rfl, -⟩
    exact List.prefix_append w t
  · rintro ⟨t, rfl⟩
    exact ⟨t, rfl, (matchesAll_star [] t).mpr ⟨[], List.nil_suffix, rfl⟩⟩

/-- `*` and a word: the texts that end with the word. -/
theorem matchesAll_star_lits (w s : List Char) :
    matchesAll (.star :: w.map .lit) s = true ↔ w <:+ s := by
  rw [matchesAll_star]
  simp only [matchesAll_lits]
  exact ⟨fun ⟨_, ht, heq⟩ => heq ▸ ht, fun h => ⟨w, h, rfl⟩⟩

section Strip

variable {p : List Glob} {u v : List Char}

theorem stripShortest_eq (h : matchesAll p u = true)
    (hmin : ∀ n, n < u.length → ¬ matchesAll p ((u ++ v).take n) = true) :
    stripShortest p (u ++ v) = v := by
  have hfind : (List.range ((u ++ v).length + 1)).find? (fun n => matchesAll p ((u ++ v).take n)) =
      some u.length := by
    rw [List.find?_range_eq_some]
    refine ⟨?_, ?_, fun n hn => ?_⟩
    · rw [List.take_left]
      exact h
    · rw [List.mem_range, List.length_append]
      omega
    · rw [Bool.not_eq_true', ← Bool.not_eq_true]
      exact hmin n hn
  rw [stripShortest, hfind, Option.getD_some, List.drop_left]

theorem stripLongest_eq (h : matchesAll p u = true)
    (hmax : ∀ t, t ≠ [] → t <+: v → ¬ matchesAll p (u ++ t) = true) :
    stripLongest p (u ++ v) = v := by
  have hfind : Nat.findGreatest (fun n => matchesAll p ((u ++ v).take n) = true) (u ++ v).length =
      u.length := by
    rw [Nat.findGreatest_eq_iff]
    refine ⟨by rw [List.length_append]; omega, fun _ => ?_, fun n hn hle => ?_⟩
    · rw [List.take_left]
      exact h
    · rw [List.take_append, List.take_of_length_le (by omega)]
      refine hmax _ ?_ (List.take_prefix _ _)
      rw [List.length_append] at hle
      rw [← List.length_pos_iff, List.length_take]
      omega
  rw [stripLongest, hfind, List.drop_left]

/-- No more is left than behind any match. -/
theorem length_stripLongest_le (h : matchesAll p u = true) :
    (stripLongest p (u ++ v)).length ≤ v.length := by
  have hle : u.length ≤ Nat.findGreatest (fun n => matchesAll p ((u ++ v).take n) = true)
      (u ++ v).length := by
    refine Nat.le_findGreatest (by rw [List.length_append]; omega) ?_
    rw [List.take_left]
    exact h
  have hlen : (u ++ v).length = u.length + v.length := List.length_append
  rw [stripLongest, List.length_drop]
  omega

/-- Nothing is removed when no end of the text matches. -/
theorem stripShortestEnd_eq_self_iff {s : List Char} (hnil : ¬ matchesAll p [] = true) :
    stripShortestEnd p s = s ↔ ∀ t, t <:+ s → ¬ matchesAll p t = true := by
  unfold stripShortestEnd
  cases hfind : (List.range (s.length + 1)).reverse.find? fun n => matchesAll p (s.drop n) with
  | none =>
    rw [Option.getD_none, List.take_length]
    refine iff_of_true rfl fun t ht h => ?_
    rw [List.find?_eq_none] at hfind
    rw [List.suffix_iff_eq_drop.mp ht] at h
    refine hfind (s.length - t.length) ?_ h
    rw [List.mem_reverse, List.mem_range]
    omega
  | some n =>
    rw [Option.getD_some]
    have hmatch : matchesAll p (s.drop n) = true :=
      List.find?_some (p := fun n => matchesAll p (s.drop n)) hfind
    refine iff_of_false (fun heq => ?_) fun h => h _ (List.drop_suffix n s) hmatch
    rw [List.take_eq_self_iff] at heq
    rw [List.drop_of_length_le heq] at hmatch
    exact hnil hmatch

end Strip

/-! ## As much as possible -/

/-- The longest beginning after which the rest passes the test. -/
def greedy (test : List Char → Bool) : List Char → Option (List Char × List Char)
  | [] => if test [] then some ([], []) else none
  | c :: s =>
    match greedy test s with
    | some (u, v) => some (c :: u, v)
    | none => if test (c :: s) then some ([], c :: s) else none

section Greedy

variable {test : List Char → Bool} {s u v : List Char}

theorem greedy_spec (test : List Char → Bool) (s : List Char) : match greedy test s with
    | none => ∀ w, w <:+ s → ¬ test w = true
    | some (u, v) => u ++ v = s ∧ test v = true ∧ ∀ w, w <:+ v → w ≠ v → ¬ test w = true := by
  induction s with
  | nil =>
    rw [greedy]
    by_cases h : test [] = true
    · rw [if_pos h]
      exact ⟨rfl, h, fun w hw hne => absurd (List.suffix_nil.mp hw) hne⟩
    · rw [if_neg h]
      intro w hw
      rwa [List.suffix_nil.mp hw]
  | cons c s ih =>
    rw [greedy]
    cases hrest : greedy test s with
    | some r =>
      rw [hrest] at ih
      exact ⟨congrArg (c :: ·) ih.1, ih.2⟩
    | none =>
      rw [hrest] at ih
      dsimp only at ih ⊢
      by_cases h : test (c :: s) = true
      · rw [if_pos h]
        exact ⟨rfl, h, fun w hw hne => ih w ((List.suffix_cons_iff.mp hw).resolve_left hne)⟩
      · rw [if_neg h]
        intro w hw
        rcases List.suffix_cons_iff.mp hw with rfl | hw
        · exact h
        · exact ih w hw

theorem greedy_eq_some_iff : greedy test s = some (u, v) ↔
    u ++ v = s ∧ test v = true ∧ ∀ w, w <:+ v → w ≠ v → ¬ test w = true := by
  have hspec := greedy_spec test s
  constructor
  · intro h
    rwa [h] at hspec
  · rintro ⟨rfl, htest, hmax⟩
    cases hgreedy : greedy test (u ++ v) with
    | none =>
      rw [hgreedy] at hspec
      exact absurd htest (hspec v (List.suffix_append u v))
    | some r =>
      rw [hgreedy] at hspec
      obtain ⟨heq, htest', hmax'⟩ := hspec
      -- of two ends that pass, the longer one would not be the last
      have hv : r.2 = v := by
        have hsuff : v <:+ r.1 ++ r.2 := heq ▸ List.suffix_append u v
        rcases List.suffix_or_suffix_of_suffix hsuff (List.suffix_append r.1 r.2) with h | h
        · by_contra hne
          exact hmax' v h (Ne.symm hne) htest
        · by_contra hne
          exact hmax r.2 h hne htest'
      have hu : r.1 = u := by rwa [hv, List.append_left_inj] at heq
      rw [← hu, ← hv]

end Greedy

end Jhalfs.Text
