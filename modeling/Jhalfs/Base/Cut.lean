import Mathlib.Data.List.DropRight
import Mathlib.Data.List.Infix

/-!
# String functions of XPath, and lines

`contains`, `substring-before`, `substring-after`, `translate` and `normalize-space`, on
texts as lists of characters, and the lines of a text. The first three look for the first
occurrence of a pattern (`cut`), and the two substrings are empty when there is none.

- `eq_of_contains` puts a text together again from its parts, and the two lemmas on lengths
  after it let a template that cuts a text recurse on the parts.
- An occurrence does not run over a character that is not in the pattern, so a text with
  such a character in it can be searched part by part (`cut_append_cons`,
  `contains_append_cons`, `cut_append_left`, `cut_append_right`).
- A pattern whose first character occurs in it only once does not overlap itself: each
  occurrence is the first one or stands behind it (`cut_occurrence`), and there is none in the
  text before the first (`not_contains_of_cut`).
- The lines of a text (`lines`) end before each line end; what is joined from lines without a
  line end is split into them (`lines_flatMap`).
- `normalizeSpace` of the end of a text is the end of its `normalizeSpace`
  (`normalizeSpace_suffix`).

The functions are polymorphic in the characters as long as nothing is said of white space.
-/

namespace Jhalfs.Text

universe u

section Cut

variable {α : Type u} [DecidableEq α]

/-- The parts of the text before and after the first occurrence of the pattern; nothing when it
does not occur. -/
def cut (pat : List α) : List α → Option (List α × List α)
  | [] => if pat = [] then some ([], []) else none
  | c :: s =>
    if pat.isPrefixOf (c :: s) then some ([], (c :: s).drop pat.length)
    else (cut pat s).map fun p => (c :: p.1, p.2)

def contains (s pat : List α) : Bool := (cut pat s).isSome

/-- The text before the pattern; empty when there is none. -/
def substringBefore (s pat : List α) : List α :=
  match cut pat s with
  | some p => p.1
  | none => []

/-- The text after the pattern; empty when there is none. -/
def substringAfter (s pat : List α) : List α :=
  match cut pat s with
  | some p => p.2
  | none => []

/-- `translate`: a character of `xs` becomes the one of `ys` at its place, or is removed. -/
def translateChars (s xs ys : List α) : List α :=
  s.flatMap fun c =>
    match xs.idxOf? c with
    | some i => ys[i]?.toList
    | none => [c]

theorem eq_of_cut {pat s b a : List α} (h : cut pat s = some (b, a)) : s = b ++ pat ++ a := by
  induction s generalizing b with
  | nil =>
    rw [cut] at h
    split at h
    · next hpat =>
      cases h
      rw [hpat]
      rfl
    · cases h
  | cons c s ih =>
    rw [cut] at h
    split at h
    · next hpre =>
      cases h
      obtain ⟨t, ht⟩ := List.isPrefixOf_iff_prefix.mp hpre
      rw [← ht, List.drop_left]
      rfl
    · obtain ⟨⟨b', a'⟩, hcut, heq⟩ := Option.map_eq_some_iff.mp h
      cases heq
      rw [ih hcut]
      rfl

theorem cut_isSome_iff {pat s : List α} : (cut pat s).isSome = true ↔ pat <:+: s := by
  constructor
  · intro h
    obtain ⟨⟨b, a⟩, hcut⟩ := Option.isSome_iff_exists.mp h
    exact ⟨b, a, (eq_of_cut hcut).symm⟩
  · intro h
    induction s with
    | nil =>
      rw [cut, if_pos (List.infix_nil.mp h)]
      rfl
    | cons c s ih =>
      rw [cut]
      split
      · rfl
      · next hpre =>
        rw [Option.isSome_map]
        refine ih ((List.infix_cons_iff.mp h).resolve_left fun hp => hpre ?_)
        exact List.isPrefixOf_iff_prefix.mpr hp

theorem contains_iff {s pat : List α} : contains s pat = true ↔ pat <:+: s := cut_isSome_iff

theorem contains_mono {s t pat : List α} (h : contains s pat = true) (hst : s <:+: t) :
    contains t pat = true := contains_iff.mpr ((contains_iff.mp h).trans hst)

theorem eq_of_contains {s pat : List α} (h : contains s pat = true) :
    s = substringBefore s pat ++ pat ++ substringAfter s pat := by
  obtain ⟨⟨b, a⟩, hcut⟩ := Option.isSome_iff_exists.mp h
  rw [substringBefore, substringAfter, hcut]
  exact eq_of_cut hcut

theorem substringAfter_of_not {s pat : List α} (h : ¬ contains s pat = true) :
    substringAfter s pat = [] := by
  rw [contains, Option.not_isSome_iff_eq_none] at h
  rw [substringAfter, h]

theorem substringBefore_of_not {s pat : List α} (h : ¬ contains s pat = true) :
    substringBefore s pat = [] := by
  rw [contains, Option.not_isSome_iff_eq_none] at h
  rw [substringBefore, h]

theorem length_eq_of_contains {s pat : List α} (h : contains s pat = true) :
    s.length = (substringBefore s pat).length + pat.length + (substringAfter s pat).length := by
  rw [← List.length_append, ← List.length_append, ← eq_of_contains h]

theorem ne_nil_of_contains {s pat : List α} (h : contains s pat = true) (hpat : pat ≠ []) :
    s ≠ [] := by
  rintro rfl
  exact hpat (List.infix_nil.mp (contains_iff.mp h))

theorem length_substringBefore_lt {s pat : List α} (hs : s ≠ []) (hpat : pat ≠ []) :
    (substringBefore s pat).length < s.length := by
  by_cases h : contains s pat = true
  · have hlen := length_eq_of_contains h
    have hpos := List.length_pos_iff.mpr hpat
    omega
  · rw [substringBefore_of_not h]
    exact List.length_pos_iff.mpr hs

theorem length_substringAfter_lt {s pat : List α} (hs : s ≠ []) (hpat : pat ≠ []) :
    (substringAfter s pat).length < s.length := by
  by_cases h : contains s pat = true
  · have hlen := length_eq_of_contains h
    have hpos := List.length_pos_iff.mpr hpat
    omega
  · rw [substringAfter_of_not h]
    exact List.length_pos_iff.mpr hs

theorem isPrefix_substringBefore (s pat : List α) : substringBefore s pat <+: s := by
  by_cases h : contains s pat = true
  · have heq := eq_of_contains h
    rw [List.append_assoc] at heq
    exact ⟨_, heq.symm⟩
  · rw [substringBefore_of_not h]
    exact List.nil_prefix

/-- A text with a pattern before another one is not empty. -/
theorem ne_nil_of_contains_before {s pat q : List α} (hq : q ≠ [])
    (h : contains (substringBefore s pat) q = true) : s ≠ [] :=
  ne_nil_of_contains (contains_mono h (isPrefix_substringBefore s pat).isInfix) hq

/-! ## Searching part by part -/

omit [DecidableEq α] in
/-- A pattern that begins with a character that the first part does not have. -/
theorem infix_append_cons_iff {c : α} {p u v : List α} (hu : c ∉ u) :
    c :: p <:+: u ++ c :: v ↔ p <+: v ∨ c :: p <:+: v := by
  induction u with
  | nil => rw [List.nil_append, List.infix_cons_iff, List.cons_prefix_cons, and_iff_right rfl]
  | cons d u ih =>
    rw [List.mem_cons, not_or] at hu
    rw [List.cons_append, List.infix_cons_iff, List.cons_prefix_cons, ih hu.2, or_iff_right]
    exact fun h => hu.1 h.1

omit [DecidableEq α] in
theorem prefix_append_cons_iff {p s t : List α} {c : α} (hc : c ∉ p) :
    p <+: s ++ c :: t ↔ p <+: s := by
  induction s generalizing p with
  | nil =>
    cases p with
    | nil => exact iff_of_true List.nil_prefix List.nil_prefix
    | cons d p =>
      refine iff_of_false (fun h => ?_) fun h => List.cons_ne_nil _ _ (List.prefix_nil.mp h)
      exact hc ((List.cons_prefix_cons.mp h).1 ▸ List.mem_cons_self)
  | cons d s ih =>
    cases p with
    | nil => exact iff_of_true List.nil_prefix List.nil_prefix
    | cons e p =>
      rw [List.cons_append, List.cons_prefix_cons, List.cons_prefix_cons,
        ih fun hmem => hc (List.mem_cons_of_mem _ hmem)]

/-- The first occurrence is before the character or after it. -/
theorem cut_append_cons {pat s t : List α} {c : α} (hpat : pat ≠ []) (hc : c ∉ pat) :
    cut pat (s ++ c :: t) =
      match cut pat s with
      | some p => some (p.1, p.2 ++ c :: t)
      | none => (cut pat t).map fun p => (s ++ c :: p.1, p.2) := by
  induction s with
  | nil =>
    have hnot : ¬ pat.isPrefixOf (c :: t) = true := fun h =>
      hpat (List.prefix_nil.mp ((prefix_append_cons_iff hc).mp (List.isPrefixOf_iff_prefix.mp h)))
    have hnil : cut pat ([] : List α) = none := if_neg hpat
    rw [hnil, List.nil_append]
    exact if_neg hnot
  | cons d s ih =>
    rw [List.cons_append, cut, cut]
    by_cases hpre : pat.isPrefixOf (d :: s) = true
    · have hpre' : pat <+: d :: s := List.isPrefixOf_iff_prefix.mp hpre
      have hlong : pat.isPrefixOf (d :: (s ++ c :: t)) = true :=
        List.isPrefixOf_iff_prefix.mpr ((prefix_append_cons_iff hc).mpr hpre')
      rw [if_pos hpre, if_pos hlong]
      dsimp only
      rw [← List.drop_append_of_le_length hpre'.length_le, List.cons_append]
    · have hlong : ¬ pat.isPrefixOf (d :: (s ++ c :: t)) = true := fun h =>
        hpre (List.isPrefixOf_iff_prefix.mpr
          ((prefix_append_cons_iff hc).mp (List.isPrefixOf_iff_prefix.mp h)))
      rw [if_neg hpre, if_neg hlong, ih]
      cases cut pat s with
      | some p => rfl
      | none =>
        rw [Option.map_none, Option.map_map]
        rfl

theorem contains_append_cons {pat s t : List α} {c : α} (hpat : pat ≠ []) (hc : c ∉ pat) :
    contains (s ++ c :: t) pat = (contains s pat || contains t pat) := by
  rw [contains, contains, contains, cut_append_cons hpat hc]
  cases cut pat s with
  | some p => rfl
  | none => exact Option.isSome_map

/-- The pattern is found before the character. -/
theorem cut_append_left {pat s t : List α} {c : α} (hpat : pat ≠ []) (hc : c ∉ pat)
    (h : contains s pat = true) :
    substringBefore (s ++ c :: t) pat = substringBefore s pat ∧
      substringAfter (s ++ c :: t) pat = substringAfter s pat ++ c :: t := by
  obtain ⟨p, hp⟩ := Option.isSome_iff_exists.mp h
  rw [substringBefore, substringAfter, substringBefore, substringAfter, cut_append_cons hpat hc, hp]
  exact ⟨rfl, rfl⟩

/-- The pattern is found after the character. -/
theorem cut_append_right {pat s t : List α} {c : α} (hpat : pat ≠ []) (hc : c ∉ pat)
    (hs : ¬ contains s pat = true) (ht : contains t pat = true) :
    substringBefore (s ++ c :: t) pat = s ++ c :: substringBefore t pat ∧
      substringAfter (s ++ c :: t) pat = substringAfter t pat := by
  obtain ⟨p, hp⟩ := Option.isSome_iff_exists.mp ht
  rw [contains, Option.not_isSome_iff_eq_none] at hs
  rw [substringBefore, substringAfter, substringBefore, substringAfter, cut_append_cons hpat hc,
    hs, hp]
  exact ⟨rfl, rfl⟩

/-! A pattern whose first character occurs in it only once: its occurrences do not run
over each other. -/

theorem cut_cons {pat s : List α} {c : α} (h : ¬ pat <+: c :: s) :
    cut pat (c :: s) = (cut pat s).map fun p => (c :: p.1, p.2) := by
  rw [cut, if_neg (mt List.isPrefixOf_iff_prefix.mp h)]

theorem cut_isPrefix (pat t : List α) : cut pat (pat ++ t) = some ([], t) := by
  cases pat with
  | nil => cases t <;> simp [cut]
  | cons c p =>
    rw [List.cons_append, cut, if_pos, ← List.cons_append, List.drop_left]
    exact List.isPrefixOf_iff_prefix.mpr ⟨t, rfl⟩

/-- A pattern behind a part without its first character. -/
theorem cut_append_of_notMem {c : α} {p u v : List α} (h : c ∉ u) :
    cut (c :: p) (u ++ (c :: p ++ v)) = some (u, v) := by
  induction u with
  | nil => exact cut_isPrefix _ _
  | cons d u ih =>
    rw [List.mem_cons, not_or] at h
    rw [List.cons_append, cut_cons fun hpre => h.1 (List.cons_prefix_cons.mp hpre).1, ih h.2]
    rfl

theorem cut_occurrence {c : α} {p : List α} (hc : c ∉ p) (u v : List α) :
    cut (c :: p) (u ++ (c :: p ++ v)) = some (u, v) ∨
      ∃ b w, u = b ++ (c :: p ++ w) ∧
        cut (c :: p) (u ++ (c :: p ++ v)) = some (b, w ++ (c :: p ++ v)) := by
  induction u with
  | nil => exact Or.inl (cut_isPrefix _ _)
  | cons d u ih =>
    by_cases hpre : c :: p <+: d :: u ++ (c :: p ++ v)
    · -- the pattern stands at the beginning, and ends before the other occurrence
      right
      obtain ⟨t, ht⟩ := hpre
      rw [← ht, cut_isPrefix]
      rcases List.append_eq_append_iff.mp ht with ⟨w, hu, hw⟩ | ⟨w, hp, hw⟩
      · exact ⟨[], w, hu, by rw [hw]⟩
      · cases w with
        | nil =>
          rw [List.append_nil] at hp
          refine ⟨[], [], by rw [hp]; simp, ?_⟩
          rw [List.nil_append] at hw
          rw [hw]
          rfl
        | cons e w =>
          have he : e = c := (List.cons.inj hw).1.symm
          have hmem : e ∈ p := by
            have htail := (List.cons.inj hp).2
            rw [htail]
            exact List.mem_append_right _ List.mem_cons_self
          exact absurd (he ▸ hmem) hc
    · rw [List.cons_append] at hpre ⊢
      rw [cut_cons hpre]
      rcases ih with h | ⟨b, w, hu, h⟩
      · exact Or.inl (by rw [h]; rfl)
      · exact Or.inr ⟨d :: b, w, congrArg (d :: ·) hu, by rw [h]; rfl⟩

theorem not_contains_of_cut {c : α} {p : List α} (hc : c ∉ p) {s b a : List α}
    (h : cut (c :: p) s = some (b, a)) : ¬ contains b (c :: p) = true := by
  intro hb
  obtain ⟨u, v, huv⟩ := contains_iff.mp hb
  have hs := eq_of_cut h
  rw [← huv] at hs
  have hs' : s = u ++ (c :: p ++ (v ++ (c :: p ++ a))) := by
    rw [hs]
    simp only [List.append_assoc]
  have hlen := congrArg List.length huv
  simp only [List.length_append, List.length_cons] at hlen
  rcases cut_occurrence hc u (v ++ (c :: p ++ a)) with hcut | ⟨b', w, hu, hcut⟩
  · rw [← hs', h] at hcut
    have hb := congrArg List.length (Prod.mk.inj (Option.some.inj hcut)).1
    omega
  · rw [← hs', h] at hcut
    have hb := congrArg List.length (Prod.mk.inj (Option.some.inj hcut)).1
    have hu' := congrArg List.length hu
    simp only [List.length_append, List.length_cons] at hu'
    omega

/-- The pattern does not begin before its first occurrence. -/
theorem not_isPrefix_of_cut {pat s b a : List α} (h : cut pat s = some (b, a)) {u q : List α}
    {c : α} (hb : b = u ++ c :: q) : ¬ pat <+: c :: q ++ (pat ++ a) := by
  induction s generalizing b u with
  | nil =>
    rw [cut] at h
    split at h
    · cases h
      simp at hb
    · cases h
  | cons d s ih =>
    by_cases hpre : pat <+: d :: s
    · rw [cut, if_pos (List.isPrefixOf_iff_prefix.mpr hpre)] at h
      cases h
      simp at hb
    · have hs := eq_of_cut h
      rw [cut_cons hpre] at h
      obtain ⟨⟨b', a'⟩, hcut, heq⟩ := Option.map_eq_some_iff.mp h
      cases heq
      cases u with
      | nil =>
        rw [List.nil_append] at hb
        rwa [← hb, ← List.append_assoc, ← hs]
      | cons e u => exact ih hcut (List.cons.inj hb).2

/-- The first occurrence is the first one. -/
theorem length_le_of_cut {pat s b a u v : List α} (h : cut pat s = some (b, a))
    (hs : s = u ++ (pat ++ v)) : b.length ≤ u.length := by
  by_contra hlt
  have hcuts : u ++ (pat ++ v) = b ++ (pat ++ a) := by
    rw [← hs, eq_of_cut h, List.append_assoc]
  rcases List.append_eq_append_iff.mp hcuts with ⟨w, hb, hw⟩ | ⟨w, hu, -⟩
  · cases w with
    | nil =>
      rw [List.append_nil] at hb
      exact hlt (hb ▸ Nat.le_refl _)
    | cons c w => exact not_isPrefix_of_cut h hb (hw ▸ List.prefix_append _ _)
  · have hlen := congrArg List.length hu
    rw [List.length_append] at hlen
    omega

omit [DecidableEq α] in
/-- A pattern that has its first character once ends behind that character or not at all. -/
theorem suffix_append_cons_iff {c : α} {p : List α} (hc : c ∉ p) (s t : List α) :
    c :: p <:+ s ++ c :: t ↔ c :: p <:+ c :: t := by
  constructor
  · intro h
    rcases List.suffix_or_suffix_of_suffix h (List.suffix_append s (c :: t)) with hp | ht
    · exact hp
    · rcases List.suffix_cons_iff.mp ht with heq | hin
      · exact heq ▸ List.suffix_refl _
      · exact absurd (hin.subset List.mem_cons_self) hc
  · exact fun h => h.trans (List.suffix_append s (c :: t))

/-! One character -/

theorem contains_singleton_iff {s : List α} {c : α} : contains s [c] = true ↔ c ∈ s :=
  contains_iff.trans (List.singleton_infix_iff c s)

theorem cut_singleton {c : α} {u v : List α} (h : c ∉ u) :
    cut [c] (u ++ c :: v) = some (u, v) := by
  induction u with
  | nil => rw [List.nil_append, cut, if_pos (by simp)]; rfl
  | cons d u ih =>
    rw [List.mem_cons, not_or] at h
    have hpre : ¬ ([c].isPrefixOf (d :: (u ++ c :: v))) = true := fun hp =>
      h.1 (List.cons_prefix_cons.mp (List.isPrefixOf_iff_prefix.mp hp)).1
    rw [List.cons_append, cut, if_neg hpre, ih h.2]
    rfl

theorem substringBefore_singleton {c : α} {u v : List α} (h : c ∉ u) :
    substringBefore (u ++ c :: v) [c] = u := by
  rw [substringBefore, cut_singleton h]

theorem substringAfter_singleton {c : α} {u v : List α} (h : c ∉ u) :
    substringAfter (u ++ c :: v) [c] = v := by
  rw [substringAfter, cut_singleton h]

theorem notMem_substringBefore {s : List α} {c : α} : c ∉ substringBefore s [c] := by
  by_cases hmem : c ∈ s
  · obtain ⟨u, v, rfl, hu⟩ := List.eq_append_cons_of_mem hmem
    rwa [substringBefore_singleton hu]
  · rw [substringBefore_of_not (mt contains_singleton_iff.mp hmem)]
    exact List.not_mem_nil

end Cut

/-! ## Lines -/

/-- The lines of a text; a text without a line end is one line. -/
def lines : List Char → List (List Char)
  | [] => [[]]
  | c :: s =>
    if c = '\n' then [] :: lines s
    else
      match lines s with
      | [] => [[c]]
      | l :: ls => (c :: l) :: ls

theorem lines_newline (s : List Char) : lines ('\n' :: s) = [] :: lines s := by
  rw [lines, if_pos rfl]

theorem lines_ne_nil (s : List Char) : lines s ≠ [] := by
  cases s with
  | nil => exact List.cons_ne_nil _ _
  | cons c s =>
    rw [lines]
    split
    · exact List.cons_ne_nil _ _
    · split
      · exact List.cons_ne_nil _ _
      · exact List.cons_ne_nil _ _

theorem lines_append_newline (s t : List Char) :
    lines (s ++ '\n' :: t) = lines s ++ lines t := by
  induction s with
  | nil => exact lines_newline t
  | cons c s ih =>
    rw [List.cons_append, lines, lines, ih]
    split
    · rfl
    · cases hs : lines s with
      | nil => exact absurd hs (lines_ne_nil s)
      | cons l ls => rfl

theorem lines_of_notMem {s : List Char} (h : '\n' ∉ s) : lines s = [s] := by
  induction s with
  | nil => rfl
  | cons c s ih =>
    rw [List.mem_cons, not_or] at h
    rw [lines, if_neg (Ne.symm h.1), ih h.2]

theorem notMem_of_mem_lines {s l : List Char} (h : l ∈ lines s) : '\n' ∉ l := by
  induction s generalizing l with
  | nil =>
    rw [lines, List.mem_singleton] at h
    subst h
    exact List.not_mem_nil
  | cons c s ih =>
    rw [lines] at h
    split at h
    · rcases List.mem_cons.mp h with rfl | hl
      · exact List.not_mem_nil
      · exact ih hl
    · next hc =>
      cases hs : lines s with
      | nil => exact absurd hs (lines_ne_nil s)
      | cons k ks =>
        rw [hs] at h ih
        rcases List.mem_cons.mp h with rfl | hl
        · rw [List.mem_cons, not_or]
          exact ⟨Ne.symm hc, ih List.mem_cons_self⟩
        · exact ih (List.mem_cons_of_mem _ hl)

/-- The lines that were joined with line ends. -/
theorem lines_flatMap {ls : List (List Char)} (h : ∀ l ∈ ls, '\n' ∉ l) :
    lines (ls.flatMap (· ++ ['\n'])) = ls ++ [[]] := by
  induction ls with
  | nil => rfl
  | cons l ls ih =>
    have hrest := ih fun k hk => h k (List.mem_cons_of_mem _ hk)
    rw [List.flatMap_cons, List.append_assoc, List.cons_append, List.nil_append,
      lines_append_newline, lines_of_notMem (h l List.mem_cons_self), hrest]
    rfl

/-! ## Blanks -/

/-- The white space of XML. -/
def isSpace (c : Char) : Bool := c == ' ' || c == '\t' || c == '\n' || c == '\r'

/-- One blank for each run of white space, and none at the end. -/
def collapse : List Char → List Char
  | [] => []
  | c :: s =>
    if isSpace c then
      match collapse s with
      | [] => []
      | d :: r => if d = ' ' then d :: r else ' ' :: d :: r
    else c :: collapse s

/-- `normalize-space`. -/
def normalizeSpace (s : List Char) : List Char :=
  match collapse s with
  | [] => []
  | c :: r => if c = ' ' then r else c :: r

theorem collapse_suffix (s t : List Char) : collapse t <:+ collapse (s ++ t) := by
  induction s with
  | nil => exact List.suffix_refl _
  | cons c s ih =>
    refine ih.trans ?_
    rw [List.cons_append, collapse]
    generalize collapse (s ++ t) = r
    split
    · cases r with
      | nil => exact List.suffix_refl _
      | cons d r =>
        dsimp only
        split
        · exact List.suffix_refl _
        · exact List.suffix_cons _ _
    · exact List.suffix_cons _ _

/-- What is left of the end of a text is at the end of what is left of the text. -/
theorem normalizeSpace_suffix (s t : List Char) :
    normalizeSpace t <:+ normalizeSpace (s ++ t) := by
  have hsuff := collapse_suffix s t
  unfold normalizeSpace
  cases hst : collapse (s ++ t) with
  | nil =>
    rw [hst] at hsuff
    rw [List.suffix_nil.mp hsuff]
  | cons c r =>
    rw [hst] at hsuff
    dsimp only
    by_cases hc : c = ' '
    · rw [if_pos hc]
      rcases List.suffix_cons_iff.mp hsuff with heq | hr
      · rw [heq]
        dsimp only
        rw [if_pos hc]
      · refine List.IsSuffix.trans ?_ hr
        cases ht : collapse t with
        | nil => exact List.nil_suffix
        | cons d r' =>
          dsimp only
          split
          · exact List.suffix_cons _ _
          · exact List.suffix_refl _
    · rw [if_neg hc]
      refine List.IsSuffix.trans ?_ hsuff
      cases ht : collapse t with
      | nil => exact List.nil_suffix
      | cons d r' =>
        dsimp only
        split
        · exact List.suffix_cons _ _
        · exact List.suffix_refl _

end Jhalfs.Text
