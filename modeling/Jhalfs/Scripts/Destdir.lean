import Jhalfs.Base.Weave
import Jhalfs.Scripts.MakeJobs

/-!
# Installing into the package tree

When packages are built, the install instructions of the book are made to write below
`$PKG_DEST`: `outputpkgdest` (LFS/lfs.xsl:925–1039) adds a `DESTDIR` to `make` and to
`ninja install`, and puts `$PKG_DEST` before the paths. The text is cut at each `make`, as
long as there is a `make ` in what is left of it; the paths are looked for in the parts.

- `outputPkgDest` is the template, with the pages that have their own way to install.
- What it writes for the other pages is the text with some pieces, at places that can be
  read off the text (`placed`, `outputPkgDest_eq_weave`). So the text without the pieces is
  always the instruction.
- `wanted` says where the pieces belong: a `DESTDIR` behind each shell word `make` and
  before each `ninja install`, both as the shell reads them (`ShellWords`), and a
  `$PKG_DEST` before each path behind a blank, a tab or `>`.
- `ExactDest` compares the two texts. Where the texts are equal the pieces are at the same
  places (`eq_of_exactDest`): counting the characters that only some of the pieces have,
  there are as many pieces of each kind, and pieces that differ begin differently.

The rewriting is exact if and only if each `make` with a `make ` at it or behind it is a
word, each word `make` has one, each `ninja install` is two words, and no path stands behind
a tab (`exactDest_iff`).
-/

namespace Jhalfs.Scripts

open Text
open ShellWords (wordAt endsWord)

/-! ## The template -/

/-- The pages with their own way to install, and the others. -/
inductive DestPage where
  | glibc
  | bzip2
  | sysklogd
  | iproute2
  | sysvinit
  | kernel
  | other
  deriving DecidableEq

/-- The text between the first `start` and the next `stop`. -/
def between (s start stop : List Char) : List Char := substringBefore (substringAfter s start) stop

/-- What the special pages write for a make; `whole` is the text of the instruction. -/
def specialInstall (page : DestPage) (whole : List Char) : Option (List Char) :=
  match page with
  | .glibc => some ("make install_root=$PKG_DEST -j1".toList ++
      between whole "make".toList "install".toList ++ "install\n".toList)
  | .bzip2 => some "make -j1 PREFIX=$PKG_DEST/usr install\n".toList
  | .sysklogd => some "make -j1 BINDIR=$PKG_DEST/sbin prefix=$PKG_DEST install\n".toList
  | .iproute2 => some ("make -j1 DESTDIR=$PKG_DEST DOCDIR=".toList ++
      between whole "DOCDIR=".toList "install".toList ++ "install\n".toList)
  | .sysvinit => some ("make -j1 ROOT=$PKG_DEST".toList ++
      between whole "make".toList "install".toList ++ "install\n".toList)
  | .kernel => some ("make -j1 INSTALL_MOD_PATH=$PKG_DEST".toList ++
      between whole "make".toList "install".toList ++ "install\n".toList)
  | .other => none

theorem substringBefore_ne_nil {s pat : List Char} (h : contains s pat = true)
    (hpre : (!pat.isPrefixOf s) = true) : substringBefore s pat ≠ [] := by
  intro hnil
  have hs := eq_of_contains h
  rw [hnil, List.nil_append] at hs
  rw [List.isPrefixOf_iff_prefix.mpr ⟨_, hs.symm⟩] at hpre
  cases hpre

theorem contains_make_of_blank {s : List Char} (h : contains s "make ".toList = true) :
    contains s "make".toList = true :=
  contains_iff.mpr (List.IsInfix.trans ⟨[], [' '], rfl⟩ (contains_iff.mp h))

/-- `outputpkgdest`: the special pages have their own text, and in others the template cuts at
the next make, at a `ninja install` or at an absolute path. -/
def outputPkgDest (page : DestPage) (whole s : List Char) : List Char :=
  if contains s "make ".toList then
    if !"make".toList.isPrefixOf s then
      outputPkgDest page whole (substringBefore s "make".toList) ++
        outputPkgDest page whole (substringAfter s (substringBefore s "make".toList))
    else
      -- a special page replaces all that is left, without a look at it
      match specialInstall page whole with
      | some install => install
      | none => "make -j1 DESTDIR=$PKG_DEST".toList ++
          outputPkgDest page whole (substringAfter s "make".toList)
  else if contains s "ninja install".toList then
    if !"ninja install".toList.isPrefixOf s then
      outputPkgDest page whole (substringBefore s "ninja install".toList) ++
        outputPkgDest page whole (substringAfter s (substringBefore s "ninja install".toList))
    else
      -- only the first word is cut off, so what is left does not begin with a ninja
      "DESTDIR=$PKG_DEST ninja".toList ++ outputPkgDest page whole (substringAfter s "ninja".toList)
  -- no make nor ninja in this string: the first path, behind a `>` or a blank
  else if contains s ">/".toList && !contains (substringBefore s ">/".toList) " /".toList then
    substringBefore s ">/".toList ++ ">$PKG_DEST/".toList ++
      outputPkgDest page whole (substringAfter s ">/".toList)
  else if contains s " /".toList then
    substringBefore s " /".toList ++ " $PKG_DEST/".toList ++
      outputPkgDest page whole (substringAfter s " /".toList)
  else s
termination_by s.length
decreasing_by
  · exact length_substringBefore_lt (ne_nil_of_contains ‹_› (by decide)) (by decide)
  · rename_i hmake hpre
    refine length_substringAfter_lt (ne_nil_of_contains hmake (by decide)) ?_
    exact substringBefore_ne_nil (contains_make_of_blank hmake) hpre
  · exact length_substringAfter_lt (ne_nil_of_contains ‹_› (by decide)) (by decide)
  · exact length_substringBefore_lt (ne_nil_of_contains ‹_› (by decide)) (by decide)
  · rename_i hninja hpre
    refine length_substringAfter_lt (ne_nil_of_contains hninja (by decide)) ?_
    exact substringBefore_ne_nil hninja hpre
  · exact length_substringAfter_lt (ne_nil_of_contains ‹_› (by decide)) (by decide)
  · rename_i hpath
    exact length_substringAfter_lt
      (ne_nil_of_contains (Bool.and_eq_true_iff.mp hpath).1 (by decide)) (by decide)
  · exact length_substringAfter_lt (ne_nil_of_contains ‹_› (by decide)) (by decide)

/-! ## The pieces -/

/-- The pieces at one place: for a make, for a ninja and for a path. -/
def pieces (job ninja path : Bool) : List Char :=
  (if job then " -j1 DESTDIR=$PKG_DEST".toList else []) ++
    ((if ninja then "DESTDIR=$PKG_DEST ".toList else []) ++
      if path then "$PKG_DEST".toList else [])

/-- A path begins, behind a blank or `>`: here the template puts a piece. -/
def atPath (b a : List Char) : Bool :=
  a.head? == some '/' && (b.getLast? == some ' ' || b.getLast? == some '>')

/-- A path begins behind a tab. -/
def atTabPath (b a : List Char) : Bool := a.head? == some '/' && b.getLast? == some '\t'

/-- Behind the word `make`. -/
def behindMake (b a : List Char) : Bool :=
  "make".toList.isSuffixOf b && wordAt (b.take (b.length - 4)) && endsWord b a

/-- Before the words `ninja install`. -/
def beforeNinja (b a : List Char) : Bool :=
  "ninja install".toList.isPrefixOf a && wordAt b && endsWord b (a.drop 13)

/-- Where the pieces belong. A tab is a blank; whether the path is a word of the shell, or
stands in quotes, makes no difference. -/
def wanted (b a : List Char) : List Char :=
  pieces (behindMake b a) (beforeNinja b a) (atPath b a || atTabPath b a)

/-- **The rewriting is exact**: a `DESTDIR` for each word `make` and for each
`ninja install`, and a `$PKG_DEST` for each path, and the text is as before otherwise. -/
def ExactDest (s : List Char) : Prop := outputPkgDest .other s s = weaveAll wanted s

/-- Behind a make that is cut off: the template goes on with this test as long as there is a
`make ` at it or behind it. -/
def cutMake (b a : List Char) : Bool :=
  "make".toList.isSuffixOf b && contains ("make".toList ++ a) "make ".toList

/-- Before a ninja that is cut off. -/
def cutNinja (a : List Char) : Bool := "ninja install".toList.isPrefixOf a

/-- Where the template puts the pieces, as a function of the text before a place and behind it. -/
def placed (b a : List Char) : List Char := pieces (cutMake b a) (cutNinja a) (atPath b a)

/-! ## What the template writes -/

theorem substringAfter_isPrefix (pat t : List Char) : substringAfter (pat ++ t) pat = t := by
  rw [substringAfter, cut_isPrefix]

/-- The first occurrence of a pattern cuts the text before it and the rest. -/
theorem cut_rest {s pat : List Char} (h : contains s pat = true) :
    ∃ b a, cut pat s = some (b, a) ∧ s = b ++ (pat ++ a) ∧ substringBefore s pat = b ∧
      substringAfter s (substringBefore s pat) = pat ++ a := by
  obtain ⟨⟨b, a⟩, hcut⟩ := Option.isSome_iff_exists.mp h
  have hs : s = b ++ (pat ++ a) := by rw [eq_of_cut hcut, List.append_assoc]
  have hb : substringBefore s pat = b := by rw [substringBefore, hcut]
  refine ⟨b, a, hcut, hs, hb, ?_⟩
  rw [hb, hs, substringAfter_isPrefix]

/-- What is before the text `p` matters only for a path at its beginning. -/
theorem atPath_drop {b p a : List Char} (h : p = [] → a.head? ≠ some '/') :
    atPath (b ++ p) a = atPath p a := by
  cases p with
  | nil =>
    rw [atPath, atPath, beq_eq_false_iff_ne.mpr (h rfl), Bool.false_and, Bool.false_and]
  | cons d p =>
    rw [atPath, atPath, List.getLast?_append_of_ne_nil _ (List.cons_ne_nil d p)]

theorem atPath_of_head {b a : List Char} (h : a.head? ≠ some '/') : atPath b a = false := by
  rw [atPath, beq_eq_false_iff_ne.mpr h, Bool.false_and]

theorem cutMake_nil (a : List Char) : cutMake [] a = false := rfl

theorem cutMake_of_not_suffix {b a : List Char} (h : ¬ "make".toList <:+ b) :
    cutMake b a = false := by
  have hb : "make".toList.isSuffixOf b = false := by
    rw [← Bool.not_eq_true, List.isSuffixOf_iff_suffix]
    exact h
  rw [cutMake, hb, Bool.false_and]

/-- Without a `make ` nothing is put behind a make. -/
theorem cutMake_of_not {s b a : List Char} (h : ¬ contains s "make ".toList = true)
    (hs : Place s b a) : cutMake b a = false := by
  rw [← Bool.not_eq_true, cutMake, Bool.and_eq_true]
  rintro ⟨hsuf, hblank⟩
  obtain ⟨u, rfl⟩ := List.isSuffixOf_iff_suffix.mp hsuf
  refine h (contains_mono hblank ⟨u, [], ?_⟩)
  rw [List.append_nil, ← List.append_assoc]
  exact hs

theorem cutNinja_of_not {s b a : List Char} (h : ¬ contains s "ninja install".toList = true)
    (hs : Place s b a) : cutNinja a = false := by
  rw [← Bool.not_eq_true, cutNinja, List.isPrefixOf_iff_prefix]
  intro hpre
  exact h (contains_iff.mpr (hpre.isInfix.trans ⟨b, [], by rw [List.append_nil]; exact hs⟩))

theorem cutNinja_of_head {a : List Char} (h : a.head? ≠ some 'n') : cutNinja a = false := by
  rw [← Bool.not_eq_true, cutNinja, List.isPrefixOf_iff_prefix]
  rintro ⟨t, rfl⟩
  exact h rfl

theorem placed_eq {b b' a a' : List Char} (hmake : cutMake b a = cutMake b' a')
    (hninja : cutNinja a = cutNinja a') (hpath : atPath b a = atPath b' a') :
    placed b a = placed b' a' := by
  rw [placed, placed, hmake, hninja, hpath]

theorem placed_eq_nil {b a : List Char} (hmake : cutMake b a = false)
    (hninja : cutNinja a = false) (hpath : atPath b a = false) : placed b a = [] := by
  rw [placed, hmake, hninja, hpath]
  rfl

/-- The text before the first make. -/
theorem weave_before_make {s b a : List Char} (hcut : cut "make".toList s = some (b, a)) :
    weave placed [] b [] = weave placed [] b ("make".toList ++ a) := by
  have hnone : ¬ contains b "make".toList = true := not_contains_of_cut (by decide) hcut
  refine weave_congr fun p c q hb => ?_
  have hp : ¬ "make".toList <:+ p := by
    intro hsuf
    refine hnone (contains_iff.mpr (hsuf.isInfix.trans ?_))
    exact ⟨[], c :: q, by rw [List.nil_append, hb]⟩
  rw [List.nil_append, List.append_nil]
  refine placed_eq ?_ ?_ ?_
  · rw [cutMake_of_not_suffix hp, cutMake_of_not_suffix hp]
  · rw [cutNinja, cutNinja, Bool.eq_iff_iff, List.isPrefixOf_iff_prefix, List.isPrefixOf_iff_prefix]
    exact (prefix_append_cons_iff (c := 'm') (by decide)).symm
  · rfl

/-- The text from the first make on. -/
theorem weave_from_make {s b a : List Char} (hcut : cut "make".toList s = some (b, a)) :
    weave placed [] ("make".toList ++ a) [] = weave placed b ("make".toList ++ a) [] := by
  have hnone : ¬ contains b "make".toList = true := not_contains_of_cut (by decide) hcut
  refine weave_congr fun p c q hp => ?_
  rw [List.nil_append, List.append_nil]
  have hsuf : "make".toList <:+ p ↔ "make".toList <:+ b ++ p := by
    cases p with
    | nil =>
      rw [List.append_nil]
      refine iff_of_false (fun h => ?_) fun h => hnone (contains_iff.mpr h.isInfix)
      have hlen := h.length_le
      revert hlen
      decide
    | cons d p =>
      have hd : d = 'm' := (List.cons.inj hp).1.symm
      subst hd
      exact (suffix_append_cons_iff (by decide) b p).symm
  refine placed_eq ?_ rfl (atPath_drop fun hnil => ?_).symm
  · rw [cutMake, cutMake]
    congr 1
    rwa [Bool.eq_iff_iff, List.isSuffixOf_iff_suffix, List.isSuffixOf_iff_suffix]
  · rw [hnil, List.nil_append] at hp
    rw [← hp]
    simp

/-- A text that begins with a make that is cut off. -/
theorem weave_make {a : List Char} (h : contains ("make".toList ++ a) "make ".toList = true) :
    weave placed [] ("make".toList ++ a) [] =
      "make -j1 DESTDIR=$PKG_DEST".toList ++ weave placed [] a [] := by
  -- nothing is put into the word itself
  have hword : weave placed [] "make".toList (a ++ []) = "make".toList := by
    refine weave_eq_self fun p c q hp => ?_
    have hlen := congrArg List.length hp
    have hc : c ∈ "make".toList := hp ▸ List.mem_append_right _ List.mem_cons_self
    rw [List.length_append, List.length_cons] at hlen
    refine placed_eq_nil (cutMake_of_not_suffix fun hsuf => ?_) (cutNinja_of_head ?_)
      (atPath_of_head ?_)
    · have hle := hsuf.length_le
      rw [List.nil_append] at hle
      omega
    · rw [List.cons_append, List.head?_cons]
      rintro ⟨⟩
      revert hc
      decide
    · rw [List.cons_append, List.head?_cons]
      rintro ⟨⟩
      revert hc
      decide
  rw [weave_append, hword, List.nil_append]
  cases a with
  | nil =>
    rw [List.append_nil] at h
    exact absurd h (by decide)
  | cons c a =>
    -- behind the word stands the piece for it, and what is put there anyway
    have hpiece : placed "make".toList (c :: a) =
        " -j1 DESTDIR=$PKG_DEST".toList ++ placed [] (c :: a) := by
      have hcutMake : cutMake "make".toList (c :: a) = true := by
        rw [cutMake, h]
        rfl
      have hpath : ∀ b : List Char, (b = "make".toList ∨ b = []) → atPath b (c :: a) = false := by
        rintro b (rfl | rfl)
        · rw [atPath, Bool.and_eq_false_iff]
          exact Or.inr (by decide)
        · rw [atPath, Bool.and_eq_false_iff]
          exact Or.inr (by decide)
      rw [placed, placed, hcutMake, cutMake_nil, hpath _ (Or.inl rfl), hpath _ (Or.inr rfl)]
      rfl
    have hrest : weave placed ("make".toList ++ [c]) a [] = weave placed ([] ++ [c]) a [] := by
      refine weave_congr fun p d q _ => ?_
      rw [List.nil_append, List.append_assoc, List.append_nil]
      refine placed_eq ?_ rfl (atPath_drop (by simp))
      rw [cutMake, cutMake]
      congr 1
      rw [Bool.eq_iff_iff, List.isSuffixOf_iff_suffix, List.isSuffixOf_iff_suffix]
      refine ⟨fun hsuf => ?_, fun hsuf => hsuf.trans (List.suffix_append _ _)⟩
      rcases List.suffix_or_suffix_of_suffix hsuf (List.suffix_append _ _) with hx | hx
      · exact hx
      · -- two makes do not overlap
        have hoverlap : ∀ x ∈ "make".toList.tails, x ≠ [] →
            "make".toList <:+ "make".toList ++ x → "make".toList <:+ x := by decide
        exact hoverlap _ (List.mem_tails _ _ |>.mpr hx) (List.cons_ne_nil c p) hsuf
    rw [weave, weave, List.append_nil, hpiece, hrest]
    rfl

section NoMake

variable {s : List Char} (hmake : ¬ contains s "make ".toList = true)

include hmake

theorem weave_split_ninja {b a : List Char} (hcut : cut "ninja install".toList s = some (b, a)) :
    weave placed [] b [] ++ weave placed [] ("ninja install".toList ++ a) [] =
      weave placed [] s [] := by
  have hs : s = b ++ ("ninja install".toList ++ a) := by rw [eq_of_cut hcut, List.append_assoc]
  have hbefore : ¬ contains b "make ".toList = true :=
    not_contains_of_isInfix ⟨[], _, hs.symm⟩ hmake
  have hfrom : ¬ contains ("ninja install".toList ++ a) "make ".toList = true :=
    not_contains_of_isInfix ⟨b, [], by rw [List.append_nil]; exact hs.symm⟩ hmake
  have hleft : weave placed [] b [] = weave placed [] b ("ninja install".toList ++ a) := by
    refine weave_congr fun p c q hb => ?_
    rw [List.nil_append, List.append_nil]
    have hnot := not_isPrefix_of_cut hcut hb
    refine placed_eq ?_ ?_ rfl
    · rw [cutMake_of_not hbefore hb.symm, cutMake_of_not hmake]
      rw [Place, hs, hb, List.append_assoc]
    · have hnot' : ¬ "ninja install".toList <+: c :: q := fun h =>
        hnot (h.trans (List.prefix_append _ _))
      rw [cutNinja, cutNinja, Bool.eq_iff_iff, List.isPrefixOf_iff_prefix,
        List.isPrefixOf_iff_prefix]
      exact iff_of_false hnot' hnot
  have hright : weave placed [] ("ninja install".toList ++ a) [] =
      weave placed b ("ninja install".toList ++ a) [] := by
    refine weave_congr fun p c q hp => ?_
    rw [List.nil_append, List.append_nil]
    refine placed_eq ?_ rfl ?_
    · rw [cutMake_of_not hfrom hp.symm, cutMake_of_not hmake]
      rw [Place, hs, hp, List.append_assoc]
    · refine (atPath_drop fun hnil => ?_).symm
      rw [hnil, List.nil_append] at hp
      rw [← hp]
      simp
  rw [hleft, hright]
  conv => rhs; rw [hs, weave_append, List.append_nil, List.nil_append]

theorem weave_ninja {a : List Char} (hs : s = "ninja install".toList ++ a) :
    weave placed [] s [] =
      "DESTDIR=$PKG_DEST ninja".toList ++ weave placed [] (" install".toList ++ a) [] := by
  have hs' : s = 'n' :: ("inja".toList ++ (" install".toList ++ a)) := hs
  -- one piece in front of the word, none inside it, and behind it the rest as it is
  have hpiece : placed [] s = "DESTDIR=$PKG_DEST ".toList := by
    have hninja : cutNinja s = true := by
      rw [cutNinja, List.isPrefixOf_iff_prefix, hs]
      exact List.prefix_append _ _
    have hpath : atPath [] s = false := by
      rw [atPath, Bool.and_eq_false_iff]
      exact Or.inr rfl
    rw [placed, cutMake_nil, hninja, hpath]
    rfl
  have hword : weave placed ['n'] "inja".toList (" install".toList ++ a) = "inja".toList := by
    refine weave_eq_self fun p c q hp => placed_eq_nil ?_ ?_ (atPath_of_head ?_)
    · refine cutMake_of_not hmake ?_
      rw [Place, hs', hp]
      simp
    · -- the pattern does not run over itself
      have hmem : c :: q ∈ "inja".toList.tails := by
        rw [List.mem_tails, hp]
        exact List.suffix_append _ _
      rw [← Bool.not_eq_true, cutNinja, List.isPrefixOf_iff_prefix]
      rintro ⟨t, ht⟩
      have hcases : c :: q = "inja".toList ∨ c :: q = "nja".toList ∨ c :: q = "ja".toList ∨
          c :: q = "a".toList := by simpa using hmem
      rcases hcases with h | h | h | h
      all_goals
        rw [h] at ht
        simp at ht
    · have hc : c ∈ "inja".toList := hp ▸ List.mem_append_right _ List.mem_cons_self
      rw [List.cons_append, List.head?_cons]
      rintro ⟨⟩
      revert hc
      decide
  have hrest : weave placed "ninja".toList (" install".toList ++ a) [] =
      weave placed [] (" install".toList ++ a) [] := by
    have hinfix : ¬ contains (" install".toList ++ a) "make ".toList = true :=
      not_contains_of_isInfix ⟨"ninja".toList, [], by rw [hs, List.append_nil]; rfl⟩ hmake
    refine weave_congr fun p c q hp => ?_
    rw [List.nil_append, List.append_nil]
    refine placed_eq ?_ rfl ?_
    · rw [cutMake_of_not hinfix hp.symm, cutMake_of_not hmake]
      rw [Place, List.append_assoc, ← hp]
      exact hs.symm
    · refine atPath_drop fun hnil => ?_
      rw [hnil, List.nil_append] at hp
      rw [← hp]
      simp
  calc weave placed [] s []
      = placed [] s ++
          'n' :: weave placed ['n'] ("inja".toList ++ (" install".toList ++ a)) [] := by
        conv => lhs; rw [hs', weave, List.append_nil, ← hs']
        rfl
    _ = "DESTDIR=$PKG_DEST ".toList ++ 'n' :: ("inja".toList ++
          weave placed "ninja".toList (" install".toList ++ a) []) := by
        rw [hpiece, weave_append, List.append_nil, hword]
        rfl
    _ = _ := by
        rw [hrest]
        rfl

end NoMake

/-! ## Paths -/

/-- The pieces for the paths alone. -/
def onPath (b a : List Char) : List Char := if atPath b a then "$PKG_DEST".toList else []

theorem onPath_eq_nil {b a : List Char} (h : ¬ atPath b a = true) : onPath b a = [] := if_neg h

theorem atPath_iff {b a : List Char} :
    atPath b a = true ↔ ∃ u x v, (x = ' ' ∨ x = '>') ∧ b = u ++ [x] ∧ a = '/' :: v := by
  rw [atPath, Bool.and_eq_true, Bool.or_eq_true, beq_iff_eq, beq_iff_eq, beq_iff_eq,
    List.head?_eq_some_iff]
  constructor
  · rintro ⟨⟨v, rfl⟩, hx | hx⟩
    · obtain ⟨u, rfl⟩ := List.getLast?_eq_some_iff.mp hx
      exact ⟨u, ' ', v, Or.inl rfl, rfl, rfl⟩
    · obtain ⟨u, rfl⟩ := List.getLast?_eq_some_iff.mp hx
      exact ⟨u, '>', v, Or.inr rfl, rfl, rfl⟩
  · rintro ⟨u, x, v, rfl | rfl, rfl, rfl⟩
    · exact ⟨⟨v, rfl⟩, Or.inl List.getLast?_concat⟩
    · exact ⟨⟨v, rfl⟩, Or.inr List.getLast?_concat⟩

/-- Without a make and a ninja only the paths are left. -/
theorem weave_placed_eq {s : List Char} (hmake : ¬ contains s "make ".toList = true)
    (hninja : ¬ contains s "ninja install".toList = true) :
    weave placed [] s [] = weave onPath [] s [] := by
  refine weave_congr fun p c q hp => ?_
  rw [List.nil_append, List.append_nil, placed, cutMake_of_not hmake hp.symm,
    cutNinja_of_not hninja hp.symm]
  rfl

/-- An occurrence that begins in the text does not end behind it. -/
theorem infix_of_length_lt {u v b w : List Char} {x y : Char}
    (h : u ++ y :: '/' :: v = b ++ x :: w) (hx : x ≠ '/') (hlt : u.length < b.length) :
    [y, '/'] <:+: b := by
  rcases List.append_eq_append_iff.mp h with ⟨t, rfl, ht⟩ | ⟨t, rfl, -⟩
  · match t with
    | [] =>
      rw [List.append_nil] at hlt
      exact absurd hlt (Nat.lt_irrefl _)
    | [_] => exact absurd (List.cons.inj (List.cons.inj ht).2).1.symm hx
    | c :: d :: t =>
      obtain ⟨rfl, htail⟩ := List.cons.inj ht
      obtain ⟨rfl, -⟩ := List.cons.inj htail
      exact ⟨u, t, by simp⟩
  · rw [List.length_append] at hlt
    exact absurd hlt (by omega)

/-- The text up to its first path. -/
theorem weave_path {s b a : List Char} {x : Char} (hx : x = ' ' ∨ x = '>')
    (hs : s = b ++ x :: '/' :: a)
    (hfirst : ∀ u y v, (y = ' ' ∨ y = '>') → s = u ++ y :: '/' :: v → b.length ≤ u.length) :
    weave onPath [] s [] = b ++ (x :: "$PKG_DEST/".toList) ++ weave onPath [] a [] := by
  have hs' : s = (b ++ [x]) ++ '/' :: a := by rw [hs, List.append_assoc]; rfl
  -- a path in the text before would be an earlier one
  have hbefore : weave onPath [] (b ++ [x]) ('/' :: a ++ []) = b ++ [x] := by
    refine weave_eq_self fun p c q hp => onPath_eq_nil fun hpath => ?_
    obtain ⟨u, y, v, hy, hu, hv⟩ := atPath_iff.mp hpath
    rw [List.nil_append] at hu
    have hle := hfirst u y v hy (by
      rw [hs', hp, List.append_assoc, hu, ← List.append_nil ('/' :: a), hv, List.append_assoc]
      rfl)
    have hlen := congrArg List.length hp
    rw [hu] at hlen
    simp only [List.length_append, List.length_cons, List.length_nil] at hlen
    omega
  have hpiece : onPath (b ++ [x]) ('/' :: a ++ []) = "$PKG_DEST".toList :=
    if_pos (atPath_iff.mpr ⟨b, x, a ++ [], hx, rfl, rfl⟩)
  have hrest : weave onPath (b ++ [x] ++ ['/']) a [] = weave onPath [] a [] := by
    refine weave_congr fun p c q _ => ?_
    cases p with
    | nil =>
      have hslash : ¬ atPath (b ++ [x] ++ ['/'] ++ []) (c :: q ++ []) = true := by
        rw [List.append_nil, atPath_iff]
        rintro ⟨u, y, v, hy, hu, -⟩
        obtain ⟨-, hlast⟩ := List.append_inj' hu rfl
        cases hlast
        revert hy
        decide
      have hnone : ¬ atPath ([] ++ []) (c :: q ++ []) = true := by
        rw [atPath_iff]
        rintro ⟨u, y, v, -, hu, -⟩
        simp at hu
      rw [onPath_eq_nil hslash, onPath_eq_nil hnone]
    | cons d p =>
      rw [onPath, onPath, atPath_drop (by simp), List.nil_append]
  calc weave onPath [] s []
      = weave onPath [] (b ++ [x]) ('/' :: a ++ []) ++ (onPath (b ++ [x]) ('/' :: a ++ []) ++
          '/' :: weave onPath (b ++ [x] ++ ['/']) a []) := by
        rw [hs', weave_append, List.nil_append]
        rfl
    _ = (b ++ [x]) ++ ("$PKG_DEST".toList ++ '/' :: weave onPath [] a []) := by
        rw [hbefore, hpiece, hrest]
    _ = _ := by simp

/-- A text without paths. -/
theorem weave_noPath {s : List Char} (hgreater : ¬ contains s ">/".toList = true)
    (hblank : ¬ contains s " /".toList = true) : weave onPath [] s [] = s := by
  refine weave_eq_self fun p c q hp => onPath_eq_nil fun hpath => ?_
  obtain ⟨u, y, v, hy, hu, hv⟩ := atPath_iff.mp hpath
  rw [List.nil_append] at hu
  have hs : u ++ [y, '/'] ++ v = s := by
    rw [hp, hu, ← List.append_nil (c :: q), hv]
    simp
  rcases hy with rfl | rfl
  · exact hblank (contains_iff.mpr ⟨u, v, hs⟩)
  · exact hgreater (contains_iff.mpr ⟨u, v, hs⟩)

/-! ## The result -/

theorem placed_nil (s : List Char) : placed s [] = [] := by
  refine placed_eq_nil ?_ rfl rfl
  have hblank : contains ("make".toList ++ []) "make ".toList = false := by decide
  rw [cutMake, hblank, Bool.and_false]

theorem eq_of_isPrefixOf {s p : List Char} (h : ¬ (!p.isPrefixOf s) = true) :
    s = p ++ substringAfter s p := by
  rw [Bool.not_eq_true, Bool.not_eq_false', List.isPrefixOf_iff_prefix] at h
  obtain ⟨t, rfl⟩ := h
  rw [substringAfter_isPrefix]

/-- The template puts its pieces at the places that it cuts at. -/
theorem outputPkgDest_eq (page : DestPage) (whole s : List Char) (hpage : page = .other) :
    outputPkgDest page whole s = weave placed [] s [] := by
  fun_induction outputPkgDest page whole s with
  | case1 s hmake hpre ihBefore ihAfter =>
    obtain ⟨b, a, hcut, hs, hb, hafter⟩ := cut_rest (contains_make_of_blank hmake)
    rw [ihBefore, ihAfter, hafter, hb, weave_before_make hcut, weave_from_make hcut]
    conv => rhs; rw [hs, weave_append, List.append_nil, List.nil_append]
  | case2 s hmake hpre install hspecial =>
    rw [hpage] at hspecial
    cases hspecial
  | case3 s hmake hpre hspecial ih =>
    have hs := eq_of_isPrefixOf hpre
    rw [ih]
    conv => rhs; rw [hs]
    rw [weave_make (by rwa [← hs])]
  | case4 s hmake hninja hpre ihBefore ihAfter =>
    obtain ⟨b, a, hcut, hs, hb, hafter⟩ := cut_rest hninja
    rw [ihBefore, ihAfter, hafter, hb, weave_split_ninja hmake hcut]
  | case5 s hmake hninja hpre ih =>
    have hs := eq_of_isPrefixOf hpre
    have hafter : substringAfter s "ninja".toList =
        " install".toList ++ substringAfter s "ninja install".toList := by
      conv => lhs; rw [hs]
      exact substringAfter_isPrefix "ninja".toList _
    rw [ih, hafter, weave_ninja hmake hs]
  | case6 s hmake hninja hpath ih =>
    -- the redirection is taken, since no blank path stands before it
    obtain ⟨hgreater, hblank⟩ := Bool.and_eq_true_iff.mp hpath
    obtain ⟨b, a, hcut, hs, hb, -⟩ := cut_rest hgreater
    have ha : substringAfter s ">/".toList = a := by rw [substringAfter, hcut]
    rw [hb, Bool.not_eq_true'] at hblank
    rw [ih, ha, hb, weave_placed_eq hmake hninja, weave_path (Or.inr rfl) hs, weave_placed_eq]
    · rfl
    · exact not_contains_of_isInfix ⟨b ++ ">/".toList, [], by simp [hs]⟩ hmake
    · exact not_contains_of_isInfix ⟨b ++ ">/".toList, [], by simp [hs]⟩ hninja
    · rintro u y v (rfl | rfl) huv
      · by_contra hlt
        have hinfix : " /".toList <:+: b :=
          infix_of_length_lt (huv.symm.trans hs) (by decide) (Nat.lt_of_not_le hlt)
        rw [contains_iff.mpr hinfix] at hblank
        cases hblank
      · exact length_le_of_cut hcut huv
  | case7 s hmake hninja hgreater hblank ih =>
    obtain ⟨b, a, hcut, hs, hb, -⟩ := cut_rest hblank
    have ha : substringAfter s " /".toList = a := by rw [substringAfter, hcut]
    rw [ih, ha, hb, weave_placed_eq hmake hninja, weave_path (Or.inl rfl) hs, weave_placed_eq]
    · rfl
    · exact not_contains_of_isInfix ⟨b ++ " /".toList, [], by simp [hs]⟩ hmake
    · exact not_contains_of_isInfix ⟨b ++ " /".toList, [], by simp [hs]⟩ hninja
    · rintro u y v (rfl | rfl) huv
      · exact length_le_of_cut hcut huv
      · -- the first blank path is before the first `>/`
        have hfound : contains s ">/".toList = true :=
          contains_iff.mpr ⟨u, v, by rw [huv, List.append_assoc]; rfl⟩
        obtain ⟨b', a', hcut', hs', hb', -⟩ := cut_rest hfound
        have hbefore : contains b' " /".toList = true := by
          rw [hfound, hb', Bool.true_and, Bool.not_eq_true', Bool.not_eq_false] at hgreater
          exact hgreater
        obtain ⟨u', v', rfl⟩ := contains_iff.mp hbefore
        have hle := length_le_of_cut hcut' huv
        have hle' := length_le_of_cut hcut (u := u') (v := v' ++ (">/".toList ++ a'))
          (by rw [hs']; simp)
        simp only [List.length_append] at hle
        omega
  | case8 s hmake hninja hgreater hblank =>
    -- a redirection that is not taken has a blank path before it
    have hnone : ¬ contains s ">/".toList = true := by
      intro hfound
      obtain ⟨b, a, -, hs, hb, -⟩ := cut_rest hfound
      rw [hfound, hb, Bool.true_and, Bool.not_eq_true', Bool.not_eq_false] at hgreater
      exact hblank (contains_mono hgreater ⟨[], _, hs.symm⟩)
    rw [weave_placed_eq hmake hninja, weave_noPath hnone hblank]

/-- **The text with pieces**: what is written for the other pages. -/
theorem outputPkgDest_eq_weave (whole s : List Char) :
    outputPkgDest .other whole s = weaveAll placed s := by
  rw [outputPkgDest_eq _ _ _ rfl, weaveAll, placed_nil, List.append_nil]

/-! ## When it is exact -/

theorem count_pieces_j : ∀ job ninja path : Bool,
    (pieces job ninja path).count 'j' = job.toNat := by decide

theorem count_pieces_eq : ∀ job ninja path : Bool,
    (pieces job ninja path).count '=' = job.toNat + ninja.toNat := by decide

theorem count_pieces_dollar : ∀ job ninja path : Bool,
    (pieces job ninja path).count '$' = job.toNat + ninja.toNat + path.toNat := by decide

theorem cutNinja_of_beforeNinja {b a : List Char} (h : beforeNinja b a = true) :
    cutNinja a = true := by
  rw [beforeNinja, Bool.and_eq_true, Bool.and_eq_true] at h
  exact h.1.1

theorem toNat_inj {x y : Bool} (h : x.toNat = y.toNat) : x = y := by
  cases x with
  | false => cases y with
    | false => rfl
    | true => cases h
  | true => cases y with
    | false => cases h
    | true => rfl

theorem isSuffixOf_of_cutMake_ne {b a : List Char} (h : cutMake b a ≠ behindMake b a) :
    "make".toList <:+ b := by
  rw [← List.isSuffixOf_iff_suffix]
  by_contra hsuf
  rw [Bool.not_eq_true] at hsuf
  rw [cutMake, behindMake, hsuf] at h
  exact h rfl

/-- Behind a tab stands no path that the template finds. -/
theorem atPath_of_tab {b a : List Char} (h : atTabPath b a = true) : atPath b a = false := by
  rw [atTabPath, Bool.and_eq_true, beq_iff_eq, beq_iff_eq] at h
  rw [atPath, h.2, Bool.and_eq_false_iff]
  exact Or.inr (by decide)

/-- The pieces for a make end with another character than the make. -/
theorem apart_of_eq {b a : List Char} (hninja : cutNinja a = beforeNinja b a)
    (htab : atTabPath b a = false) : placed b a = wanted b a ∨ Apart placed wanted b a := by
  rw [Apart, placed, wanted, hninja, htab, Bool.or_false]
  by_cases hjob : cutMake b a = behindMake b a
  · left
    rw [hjob]
  · right
    obtain ⟨u, rfl⟩ := isSuffixOf_of_cutMake_ne hjob
    refine ⟨" -j1 DESTDIR=$PKG_DEST".toList, pieces false (beforeNinja (u ++ "make".toList) a)
      (atPath (u ++ "make".toList) a), ?_, by decide, ?_⟩
    · have hmake : (u ++ "make".toList).getLast? = some 'e' := by
        rw [List.getLast?_append]
        rfl
      rw [hmake]
      decide
    · cases hcut : cutMake (u ++ "make".toList) a with
      | true =>
        rw [hcut] at hjob
        rw [Bool.eq_false_iff.mpr (Ne.symm hjob)]
        exact Or.inl ⟨rfl, rfl⟩
      | false =>
        rw [hcut] at hjob
        rw [Bool.of_not_eq_false (Ne.symm hjob)]
        exact Or.inr ⟨rfl, rfl⟩

/-- Of two tests, one of which implies the other, that hold at equally many places, each
holds where the other does. -/
theorem eq_of_totalAll_toNat {f g : List Char → List Char → Bool} {s : List Char}
    (hle : ∀ b a, f b a = true → g b a = true)
    (h : totalAll (fun b a => (f b a).toNat) s = totalAll (fun b a => (g b a).toNat) s)
    {b a : List Char} (hs : Place s b a) : f b a = g b a := by
  refine toNat_inj (eq_of_totalAll_eq (fun b a _ => ?_) h.symm b a hs).symm
  cases hf : f b a with
  | false => exact Nat.zero_le _
  | true => rw [hle b a hf]

/-- Equal texts have the same makes, ninjas and paths. -/
theorem eq_of_exactDest {s : List Char} (h : ExactDest s) {b a : List Char} (hs : Place s b a) :
    cutMake b a = behindMake b a ∧ cutNinja a = beforeNinja b a ∧ atTabPath b a = false := by
  rw [ExactDest, outputPkgDest_eq_weave] at h
  -- a `j` is put only for a make, a `=` for a make and for a ninja, and a `$` for each piece
  have hjobs : totalAll (fun b a => (cutMake b a).toNat) s =
      totalAll (fun b a => (behindMake b a).toNat) s := by
    have hcount := congrArg (List.count 'j') h
    simp only [count_weaveAll, placed, wanted, count_pieces_j] at hcount
    omega
  have hninjas : totalAll (fun _ a => (cutNinja a).toNat) s =
      totalAll (fun b a => (beforeNinja b a).toNat) s := by
    have hcount := congrArg (List.count '=') h
    simp only [count_weaveAll, placed, wanted, count_pieces_eq, totalAll_add] at hcount
    omega
  have hpaths : totalAll (fun b a => (atPath b a).toNat) s =
      totalAll (fun b a => (atPath b a || atTabPath b a).toNat) s := by
    have hcount := congrArg (List.count '$') h
    simp only [count_weaveAll, placed, wanted, count_pieces_dollar, totalAll_add] at hcount
    omega
  -- every word `ninja install` is cut off, so as many are cut off only if they are the same
  have hninja : ∀ b a, Place s b a → cutNinja a = beforeNinja b a := fun b a hplace =>
    (eq_of_totalAll_toNat (fun _ _ => cutNinja_of_beforeNinja) hninjas.symm hplace).symm
  have htab : ∀ b a, Place s b a → atTabPath b a = false := by
    intro b a hplace
    have hpath := eq_of_totalAll_toNat (fun b a hb => by rw [hb, Bool.true_or]) hpaths hplace
    by_contra htab
    rw [Bool.not_eq_false] at htab
    rw [atPath_of_tab htab, htab] at hpath
    cases hpath
  have hpieces := eq_of_weave_eq (a := []) (fun p q hpq => by
    rw [List.append_nil]
    exact apart_of_eq (hninja p q hpq) (htab p q hpq)) h b a hs
  rw [List.append_nil] at hpieces
  have hjob := congrArg (List.count 'j') hpieces
  rw [placed, wanted, count_pieces_j, count_pieces_j] at hjob
  exact ⟨toNat_inj hjob, hninja b a hs, htab b a hs⟩

theorem exactDest_of_eq {s : List Char} (h : ∀ b a, Place s b a →
    cutMake b a = behindMake b a ∧ cutNinja a = beforeNinja b a ∧ atTabPath b a = false) :
    ExactDest s := by
  rw [ExactDest, outputPkgDest_eq_weave]
  refine weaveAll_congr fun b a hs => ?_
  obtain ⟨hmake, hninja, htab⟩ := h b a hs
  rw [placed, wanted, hmake, hninja, htab, Bool.or_false]

/-- The makes of the text that are cut off are its words `make`, the ninjas its words
`ninja install`, and the template finds all its paths. -/
structure WholeWords (s : List Char) : Prop where
  /-- A `make` with a `make ` at it or behind it is a word. -/
  word : ∀ u v, s = u ++ ("make".toList ++ v) →
    contains ("make".toList ++ v) "make ".toList = true →
      wordAt u = true ∧ endsWord (u ++ "make".toList) v = true
  /-- A word `make` has a `make ` at it or behind it. -/
  followed : ∀ u v, s = u ++ ("make".toList ++ v) → wordAt u = true →
    endsWord (u ++ "make".toList) v = true →
      contains ("make".toList ++ v) "make ".toList = true
  ninja : ∀ u v, s = u ++ ("ninja install".toList ++ v) →
    wordAt u = true ∧ endsWord u v = true
  /-- No path stands behind a tab. -/
  tab : ∀ u v, s ≠ u ++ '\t' :: '/' :: v

theorem behindMake_iff (u v : List Char) : behindMake (u ++ "make".toList) v = true ↔
    wordAt u = true ∧ endsWord (u ++ "make".toList) v = true := by
  have hsuf : "make".toList.isSuffixOf (u ++ "make".toList) = true :=
    List.isSuffixOf_iff_suffix.mpr (List.suffix_append _ _)
  have htake : (u ++ "make".toList).take ((u ++ "make".toList).length - 4) = u := by
    rw [List.length_append]
    exact List.take_left
  rw [behindMake, hsuf, htake, Bool.true_and, Bool.and_eq_true]

theorem cutMake_iff (u v : List Char) :
    cutMake (u ++ "make".toList) v = contains ("make".toList ++ v) "make ".toList := by
  have hsuf : "make".toList.isSuffixOf (u ++ "make".toList) = true :=
    List.isSuffixOf_iff_suffix.mpr (List.suffix_append _ _)
  rw [cutMake, hsuf, Bool.true_and]

theorem beforeNinja_iff (u v : List Char) :
    beforeNinja u ("ninja install".toList ++ v) = true ↔
      wordAt u = true ∧ endsWord u v = true := by
  have hpre : "ninja install".toList.isPrefixOf ("ninja install".toList ++ v) = true :=
    List.isPrefixOf_iff_prefix.mpr (List.prefix_append _ _)
  have hdrop : ("ninja install".toList ++ v).drop 13 = v := rfl
  rw [beforeNinja, hpre, hdrop, Bool.true_and, Bool.and_eq_true]

theorem atTabPath_iff (b a : List Char) :
    atTabPath b a = true ↔ ∃ u v, b = u ++ ['\t'] ∧ a = '/' :: v := by
  rw [atTabPath, Bool.and_eq_true, beq_iff_eq, beq_iff_eq, List.head?_eq_some_iff,
    List.getLast?_eq_some_iff]
  constructor
  · rintro ⟨⟨v, ha⟩, u, hb⟩
    exact ⟨u, v, hb, ha⟩
  · rintro ⟨u, v, hb, ha⟩
    exact ⟨⟨v, ha⟩, u, hb⟩

/-- **When the rewriting is exact.** -/
theorem exactDest_iff (s : List Char) : ExactDest s ↔ WholeWords s := by
  constructor
  · intro h
    have hmake : ∀ u v, s = u ++ ("make".toList ++ v) →
        (contains ("make".toList ++ v) "make ".toList = true ↔
          wordAt u = true ∧ endsWord (u ++ "make".toList) v = true) := by
      intro u v hs
      have hplace : Place s (u ++ "make".toList) v := by rw [Place, hs, List.append_assoc]
      rw [← behindMake_iff, ← (eq_of_exactDest h hplace).1, cutMake_iff]
    refine ⟨fun u v hs => (hmake u v hs).mp, fun u v hs hu hv => (hmake u v hs).mpr ⟨hu, hv⟩,
      fun u v hs => ?_, fun u v hs => ?_⟩
    · rw [← beforeNinja_iff, ← (eq_of_exactDest h hs.symm).2.1, cutNinja,
        List.isPrefixOf_iff_prefix]
      exact List.prefix_append _ _
    · have hplace : Place s (u ++ ['\t']) ('/' :: v) := by rw [Place, hs, List.append_assoc]; rfl
      have htab := (eq_of_exactDest h hplace).2.2
      rw [(atTabPath_iff _ _).mpr ⟨u, v, rfl, rfl⟩] at htab
      cases htab
  · rintro ⟨hword, hfollowed, hninja, htab⟩
    refine exactDest_of_eq fun b a hs => ⟨?_, ?_, ?_⟩
    · by_contra hne
      obtain ⟨u, rfl⟩ := isSuffixOf_of_cutMake_ne hne
      rw [Place, List.append_assoc] at hs
      refine hne (Bool.eq_iff_iff.mpr ?_)
      rw [cutMake_iff, behindMake_iff]
      exact ⟨hword u a hs.symm, fun h => hfollowed u a hs.symm h.1 h.2⟩
    · refine Bool.eq_iff_iff.mpr ⟨fun hcut => ?_, cutNinja_of_beforeNinja⟩
      obtain ⟨v, rfl⟩ := List.isPrefixOf_iff_prefix.mp hcut
      exact (beforeNinja_iff b v).mpr (hninja b v hs.symm)
    · rw [← Bool.not_eq_true, atTabPath_iff]
      rintro ⟨u, v, rfl, rfl⟩
      rw [Place, List.append_assoc] at hs
      exact htab u v hs.symm

/-- A command whose name begins with `make` is cut in two when a `make ` stands behind it. -/
theorem makeinfo_not_exact : ¬ ExactDest "makeinfo doc\nmake install".toList := by
  intro h
  have hplace : Place "makeinfo doc\nmake install".toList "make".toList
      "info doc\nmake install".toList := rfl
  have hcut := (eq_of_exactDest h hplace).1
  revert hcut
  decide

end Jhalfs.Scripts
