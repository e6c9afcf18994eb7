import Jhalfs.Base.Cut

/-!
# The text of the instructions

The templates of BLFS/xsl/scripts.xsl and process-install.xsl that write the text of an
instruction. The book joins commands with `&&` at the end of a line. As the scripts begin
with `set -e`, `remove-ampersand` removes it, except after a condition, which may fail.

With `sudo='y'` the instructions for root are written into a here-document, and
`output-root` escapes the characters `$`, a backquote and a backslash. It does so by
splitting the text at these characters, and applies `remove-ampersand` to what is left
between them: there a condition is looked for in a part of the line only.

- `Params`: the parameters that decide how an instruction is written. They are those of all
  three templates.
- `removeAmpersand`: it recurses on what is behind an `&&` and its line end, and looks at the
  last line of what is before.
- `outputRoot`: three recursions on a backslash, a `$` and a backquote, one inside the other.
- `outputInstall`: the instructions that install, split at each `make `.

The templates recurse on parts of a text, so the lengths of the parts (`Base.Cut`) say that
they end. The lemmas at the end are about the last line of a text and of its end: what is a
condition for a part of a line is one for the whole line (`isCondition_mono`).
-/

namespace Jhalfs.Scripts

open Text

/-- The parameters of the stylesheets that decide how an instruction is written. -/
structure Params where
  withSudo : Bool
  wrapInstall : Bool
  delLaFiles : Bool

/-! ## Ampersands -/

/-- `remove-end-space` (scripts.xsl:959–976). -/
def removeEndSpace (s : List Char) : List Char :=
  if s.getLast? = some ' ' then removeEndSpace s.dropLast else s
termination_by s.length
decreasing_by
  cases s with
  | nil => simp at *
  | cons c s => simp

/-- `last-line` (scripts.xsl:943–957). -/
def lastLine (s : List Char) : List Char :=
  if contains s ['\n'] then lastLine (substringAfter s ['\n']) else normalizeSpace s
termination_by s.length
decreasing_by
  rename_i h
  exact length_substringAfter_lt (ne_nil_of_contains h (by decide)) (by decide)

/-- The tests on the line before the `&&` (scripts.xsl:924–926). -/
def isCondition (line : List Char) : Bool :=
  contains line " ]".toList || contains line "test ".toList || contains line "pgrep -l".toList

/-- `&amp;&amp;&#xA;`. -/
def ampNewline : List Char := "&&\n".toList

/-- `remove-ampersand` (scripts.xsl:908–941). -/
def removeAmpersand (s : List Char) : List Char :=
  if contains s ampNewline then
    removeEndSpace (substringBefore s ampNewline) ++
      (if isCondition (lastLine (substringBefore s ampNewline)) then " &&".toList else []) ++
      '\n' :: removeAmpersand (substringAfter s ampNewline)
  else s
termination_by s.length
decreasing_by
  rename_i h
  exact length_substringAfter_lt (ne_nil_of_contains h (by decide)) (by decide)

/-! ## Instructions for root -/

/-- `output-root` (scripts.xsl:742–785). -/
def outputRoot (withSudo : Bool) (s : List Char) : List Char :=
  if contains s ['$'] && withSudo then
    outputRoot withSudo (substringBefore s ['$']) ++ "\\$".toList ++
      outputRoot withSudo (substringAfter s ['$'])
  else if contains s ['`'] && withSudo then
    outputRoot withSudo (substringBefore s ['`']) ++ "\\`".toList ++
      outputRoot withSudo (substringAfter s ['`'])
  else if contains s ['\\'] && withSudo then
    outputRoot withSudo (substringBefore s ['\\']) ++ "\\\\".toList ++
      outputRoot withSudo (substringAfter s ['\\'])
  else removeAmpersand s
termination_by s.length
decreasing_by
  all_goals
    rename_i h
    have hne := ne_nil_of_contains (Bool.and_eq_true_iff.mp h).1 (by decide)
    first
    | exact length_substringBefore_lt hne (by decide)
    | exact length_substringAfter_lt hne (by decide)

/-- The test of `output-install` for a make (process-install.xsl:543–545). -/
def callsMake (s : List Char) : Bool :=
  "make ".toList.isPrefixOf s || contains s " make ".toList || contains s "\nmake".toList

theorem ne_nil_of_callsMake {s : List Char} (h : callsMake s = true) : s ≠ [] := by
  rintro rfl
  exact absurd h (by decide)

/-- `output-install` (process-install.xsl:540–577). The text is split at each `make `,
as soon as one of the three tests finds a make that is a word; where the last one has
found a make at the beginning of a line that no blank follows, the text before `make `
and after it is empty. -/
def outputInstall (P : Params) (s : List Char) : List Char :=
  if callsMake s then
    outputInstall P (substringBefore s "make ".toList) ++ "make -j1 ".toList ++
      outputInstall P (substringAfter s "make ".toList)
  else if contains s ['\''] && P.wrapInstall then
    outputRoot P.withSudo (substringBefore s ['\'']) ++ "'\\''".toList ++
      outputInstall P (substringAfter s ['\''])
  else outputRoot P.withSudo s
termination_by s.length
decreasing_by
  · exact length_substringBefore_lt (ne_nil_of_callsMake ‹_›) (by decide)
  · exact length_substringAfter_lt (ne_nil_of_callsMake ‹_›) (by decide)
  · rename_i h
    exact length_substringAfter_lt
      (ne_nil_of_contains (Bool.and_eq_true_iff.mp h).1 (by decide)) (by decide)

/-! ## What the templates do to the end of a text -/

theorem removeEndSpace_concat (s : List Char) (c : Char) :
    removeEndSpace (s ++ [c]) = if c = ' ' then removeEndSpace s else s ++ [c] := by
  rw [removeEndSpace.eq_def (s ++ [c]), List.getLast?_concat, List.dropLast_concat]
  simp only [Option.some.injEq]

theorem removeEndSpace_nil : removeEndSpace [] = [] := by
  rw [removeEndSpace, if_neg (by simp)]

theorem removeEndSpace_subset (s : List Char) : removeEndSpace s ⊆ s := by
  fun_induction removeEndSpace s with
  | case1 s h ih => exact List.Subset.trans ih (List.dropLast_subset s)
  | case2 s h => exact List.Subset.refl s

theorem removeEndSpace_append_cons (s : List Char) {c : Char} (hc : c ≠ ' ') (t : List Char) :
    removeEndSpace (s ++ c :: t) = s ++ c :: removeEndSpace t := by
  induction t using List.reverseRecOn with
  | nil => rw [removeEndSpace_concat, if_neg hc, removeEndSpace_nil]
  | append_singleton t d ih =>
    have happend : s ++ c :: (t ++ [d]) = (s ++ c :: t) ++ [d] := by simp
    rw [happend, removeEndSpace_concat, removeEndSpace_concat]
    by_cases hd : d = ' '
    · rw [if_pos hd, if_pos hd, ih]
    · rw [if_neg hd, if_neg hd, happend]

theorem lastLine_suffix_cons (c : Char) (s : List Char) : lastLine s <:+ lastLine (c :: s) := by
  have hcontains : contains (c :: s) ['\n'] = (decide (c = '\n') || contains s ['\n']) := by
    rw [Bool.eq_iff_iff, Bool.or_eq_true, decide_eq_true_iff, contains_iff, contains_iff,
      List.singleton_infix_iff, List.singleton_infix_iff, List.mem_cons, eq_comm]
  rw [lastLine.eq_def (c :: s), hcontains]
  by_cases hc : c = '\n'
  · subst hc
    exact List.suffix_refl _
  · rw [decide_eq_false hc, Bool.false_or]
    have hafter : substringAfter (c :: s) ['\n'] = substringAfter s ['\n'] := by
      have hpre : ¬ (['\n'] : List Char).isPrefixOf (c :: s) = true := fun h =>
        hc (List.cons_prefix_cons.mp (List.isPrefixOf_iff_prefix.mp h)).1.symm
      rw [substringAfter, substringAfter, cut, if_neg hpre]
      cases cut ['\n'] s <;> rfl
    rw [hafter, lastLine.eq_def s]
    split
    · exact List.suffix_refl _
    · exact normalizeSpace_suffix [c] s

/-- The last line of the end of a text is at the end of the last line of the text. -/
theorem lastLine_suffix (s t : List Char) : lastLine t <:+ lastLine (s ++ t) := by
  induction s with
  | nil => exact List.suffix_refl _
  | cons c s ih => exact ih.trans (lastLine_suffix_cons c _)

theorem isCondition_mono {s t : List Char} (hst : s <:+ t) (h : isCondition s = true) :
    isCondition t = true := by
  unfold isCondition at h ⊢
  rw [Bool.or_eq_true, Bool.or_eq_true] at h ⊢
  exact h.imp (Or.imp (contains_mono · hst.isInfix) (contains_mono · hst.isInfix))
    (contains_mono · hst.isInfix)

end Jhalfs.Scripts
