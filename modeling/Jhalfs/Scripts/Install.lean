import Jhalfs.Scripts.Ampersand

/-!
# The instructions of a page

`process-install` (BLFS/xsl/process-install.xsl) goes through the instructions of a page
and writes, before and after them, the lines that open and close a shell of root, an
installation that is recorded, the test suite and the documentation. Four flags tell
what is open. The model keeps the calls of the templates apart from the text that each
of them writes.

- `Instruction`: a `screen` or a `command` with what the template asks of it: for root or not, a
  test, a documentation, and its text.
- `detectConfig`: an instruction of configuration, which is not recorded. It is known by words in
  its text.
- `Call` and `processInstall`: the calls in order, by recursion on the instructions with the
  four flags as parameters. The branches are those of the template, one after the other.
- `processTest`, `outputCommentOut` and `processDoc`: the templates that comment out. They work
  line by line, on a string that may begin with a linefeed.

**Main results**: without statistics the test suite is commented out (`commented_processTest`),
and so is the documentation, for root in any case (`commented_outputCommentOut`).
-/

namespace Jhalfs.Scripts

open Text

/-! ## Instructions -/

/-- The values of `@remap` that matter. -/
inductive Remap where
  | test
  | doc
  deriving DecidableEq

/-- A `screen` with `userinput`, or a `command` that mentions a check or a test. The text of others
is not written. -/
structure Instruction where
  isCommand : Bool
  root : Bool
  remap : Option Remap
  text : List Char

/-- `detect-config` (process-install.xsl:3–15): instructions that are not recorded. -/
def detectConfig (s : List Char) : Bool :=
  ["useradd", "groupadd", "usermod", "icon-cache", "desktop-database", "compile-schemas",
    "query-loaders", "pam.d", "/opt/rustc", "libQt5WebEngine", "desktop-file-edit",
    "query-immodules"].any fun word => contains s word.toList

/-- A call of a template. -/
inductive Call where
  | beginRoot
  | endRoot
  | beginInstall
  | endInstall
  | beginTest
  | endTest
  | beginDoc
  | endDoc
  | endMake
  -- time, installation of all that is left below `$PKG_DEST`, time and size
  | stats (rest : List Instruction)
  -- `apply-templates`: `mode="root"`, `mode="install"` and the normal one
  | root (i : Instruction)
  | install (i : Instruction)
  | user (i : Instruction)
  -- the same, and then `process-test`, `output-comment-out` and `process-doc`
  | test (i : Instruction)
  | comment (i : Instruction)
  | doc (i : Instruction)

/-- `xsl:if`. -/
def when (test : Bool) (c : Call) : List Call := if test then [c] else []

@[simp] theorem when_true (c : Call) : when true c = [c] := rfl

@[simp] theorem when_false (c : Call) : when false c = [] := rfl

/-- `process-install` (process-install.xsl:23–343). -/
def processInstall (wantStats : Bool) (rootSeen installSeen testSeen docSeen : Bool) :
    List Instruction → List Call
  -- close everything
  | [] =>
    when installSeen .endInstall ++ when rootSeen .endRoot ++
      when (docSeen && !rootSeen) .endDoc ++ when testSeen .endTest
  | i :: is =>
    if i.root && i.remap == some .test then
      when installSeen .endInstall ++ when rootSeen .endRoot ++
        when (docSeen && !rootSeen) .endDoc ++ when (!testSeen) .beginTest ++
        .beginRoot :: .test i :: processInstall wantStats true false true false is
    else if i.root && i.remap == some .doc then
      when testSeen .endTest ++ when (docSeen && !rootSeen) .endDoc ++
        when (!rootSeen) .beginRoot ++ when (!installSeen) .beginInstall ++
        .comment i :: processInstall wantStats true true false true is
    else if i.root then
      if detectConfig i.text then
        when installSeen .endInstall ++ when testSeen .endTest ++
          when (docSeen && !rootSeen) .endDoc ++ when (!rootSeen) .beginRoot ++
          .root i :: processInstall wantStats true false false false is
      else
        when testSeen .endTest ++ when (docSeen && !rootSeen) .endDoc ++
          (if wantStats && !installSeen then
            when rootSeen .endRoot ++
              .stats ((i :: is).filter Instruction.root) :: when rootSeen .beginRoot
          else []) ++
          when (!rootSeen) .beginRoot ++ when (!installSeen) .beginInstall ++
          .install i :: processInstall wantStats true true false false is
    else if i.remap == some .test || i.isCommand then
      when installSeen .endInstall ++ when rootSeen .endRoot ++
        when (docSeen && !rootSeen) .endDoc ++
        (if !testSeen then when (!docSeen) .endMake ++ [.beginTest] else []) ++
        .test i :: processInstall wantStats false false true false is
    else if i.remap == some .doc then
      when installSeen .endInstall ++ when rootSeen .endRoot ++ when testSeen .endTest ++
        (if !docSeen || rootSeen then
          when (!testSeen && !rootSeen) .endMake ++ [.beginDoc]
        else []) ++
        .doc i :: processInstall wantStats false false false true is
    else
      when installSeen .endInstall ++ when rootSeen .endRoot ++
        when (docSeen && !rootSeen) .endDoc ++ when testSeen .endTest ++
        .user i :: processInstall wantStats false false false false is

/-! ## Commented lines -/

/-- `make` becomes `make -k` (process-install.xsl:387–397). -/
def makeK (line : List Char) : List Char :=
  if contains line "make".toList && !contains line "make -k".toList then
    substringBefore line "make".toList ++ "make -k".toList ++ substringAfter line "make".toList
  else line

/-- One line of `process-test`. -/
def testLine (wantStats : Bool) (line : List Char) : List Char :=
  (if wantStats then [] else ['#']) ++ makeK line ++
    if line.getLast? = some '\\' then []
    else (if wantStats then " >> $TESTLOG 2>&1".toList else []) ++ " || true".toList

/-- `process-test` (process-install.xsl:355–408): the string may begin with a linefeed,
and is split at the next one. -/
def processTest (wantStats : Bool) (s : List Char) : List Char :=
  if s.head? = some '\n' then '\n' :: processTest wantStats (substringAfter s ['\n'])
  else if contains s ['\n'] then
    processTest wantStats (substringBefore s ['\n']) ++
      '\n' :: processTest wantStats (substringAfter s ['\n'])
  else testLine wantStats s
termination_by s.length
decreasing_by
  · refine length_substringAfter_lt ?_ (by decide)
    rintro rfl
    cases ‹List.head? [] = _›
  all_goals
    rename_i h
    have hne := ne_nil_of_contains h (by decide)
    first
    | exact length_substringBefore_lt hne (by decide)
    | exact length_substringAfter_lt hne (by decide)

/-- `output-comment-out` (process-install.xsl:425–453). -/
def outputCommentOut (s : List Char) : List Char :=
  if s.head? = some '\n' then '\n' :: outputCommentOut (substringAfter s ['\n'])
  else if contains s ['\n'] then
    '#' :: substringBefore s ['\n'] ++ '\n' :: outputCommentOut (substringAfter s ['\n'])
  else '#' :: s
termination_by s.length
decreasing_by
  · refine length_substringAfter_lt ?_ (by decide)
    rintro rfl
    cases ‹List.head? [] = _›
  · exact length_substringAfter_lt (ne_nil_of_contains ‹_› (by decide)) (by decide)

/-- `process-doc` (process-install.xsl:410–423). -/
def processDoc (wantStats : Bool) (s : List Char) : List Char :=
  if wantStats then s else outputCommentOut s

/-- Every line of the text is empty or a comment. -/
def Commented (s : List Char) : Prop := ∀ l ∈ lines s, l = [] ∨ l.head? = some '#'

theorem Commented.append_newline {s t : List Char} (hs : Commented s) (ht : Commented t) :
    Commented (s ++ '\n' :: t) := by
  intro l hl
  rw [lines_append_newline, List.mem_append] at hl
  exact hl.elim (hs l) (ht l)

theorem commented_nil : Commented [] := fun _ hl => Or.inl (List.mem_singleton.mp hl)

theorem Commented.newline {s : List Char} (hs : Commented s) : Commented ('\n' :: s) :=
  commented_nil.append_newline hs

theorem commented_of_line {s : List Char} (hs : '\n' ∉ s) (hhead : s.head? = some '#') :
    Commented s := by
  intro l hl
  rw [lines_of_notMem hs, List.mem_singleton] at hl
  exact Or.inr (hl ▸ hhead)

theorem makeK_subset (s : List Char) : makeK s ⊆ s ++ "make -k".toList := by
  unfold makeK
  split
  · rename_i h
    rw [Bool.and_eq_true] at h
    have hs := eq_of_contains h.1
    intro c hc
    rw [List.mem_append, List.mem_append] at hc
    rw [List.mem_append]
    rcases hc with (hc | hc) | hc
    · exact Or.inl (hs ▸ List.mem_append_left _ (List.mem_append_left _ hc))
    · exact Or.inr hc
    · exact Or.inl (hs ▸ List.mem_append_right _ hc)
  · exact List.subset_append_left _ _

/-- **Without statistics the test suite is commented out**: every line that `process-test` writes is
empty or a comment. -/
theorem commented_processTest (s : List Char) : Commented (processTest false s) := by
  fun_induction processTest false s with
  | case1 s h ih => exact ih.newline
  | case2 s h hcontains ihb iha => exact ihb.append_newline iha
  | case3 s h hcontains =>
    refine commented_of_line ?_ rfl
    intro hmem
    unfold testLine at hmem
    rw [List.mem_append, List.mem_append] at hmem
    rcases hmem with (hmem | hmem) | hmem
    · exact absurd hmem (by decide)
    · rcases List.mem_append.mp (makeK_subset s hmem) with hmem | hmem
      · exact hcontains (contains_singleton_iff.mpr hmem)
      · exact absurd hmem (by decide)
    · split at hmem
      · exact absurd hmem List.not_mem_nil
      · exact absurd hmem (by decide)

/-- **The documentation is commented out** for root, and without statistics. -/
theorem commented_outputCommentOut (s : List Char) : Commented (outputCommentOut s) := by
  fun_induction outputCommentOut s with
  | case1 s h ih => exact ih.newline
  | case2 s h hcontains ih =>
    refine (commented_of_line ?_ rfl).append_newline ih
    intro hmem
    rcases List.mem_cons.mp hmem with hmem | hmem
    · exact absurd hmem (by decide)
    · exact notMem_substringBefore hmem
  | case3 s h hcontains =>
    refine commented_of_line ?_ rfl
    intro hmem
    rcases List.mem_cons.mp hmem with hmem | hmem
    · exact absurd hmem (by decide)
    · exact hcontains (contains_singleton_iff.mpr hmem)

end Jhalfs.Scripts
