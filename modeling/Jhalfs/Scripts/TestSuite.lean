import Jhalfs.Base.Cut

/-!
# Test suites

`comment-test` (LFS/lfs.xsl:1096–1193) writes the instructions of a test line by line: with
`# ` in front if the test suite is not run, `make -k` for `make`, and a redirection to the
log behind. No redirection belongs behind a line that goes on in the next one (`\`), and
none belongs in a here-document.

- `commentTestLine` and `commentTest`: the template, with the flag that it carries along for the
  here-documents.
- `Rewrite`: what is done to a line, as three parts: the `# `, the `-k` and what is appended.
  `rewriteOf` is the one that the template chooses.
- `Intact`: the text is written as some rewrite of each line, once and in order, with `# ` in front
  of all lines or of none, and nothing is appended in a here-document or behind a backslash.
- `NoneCut`: the condition on the text. The backslash is looked for in two of the five branches
  only, so a line that ends with one must not come to the others.

Each line comes out once and in order, all of them with `# ` or none, and nothing is
appended in a here-document: the flag that the template carries along is the number of the
`EOF` lines before the line (`getElem?_rewrites`).

**Main result**: `intact_iff`, the texts that stay intact. From left to right, a line with a
redirection is longer than the same line without (`tail_eq_nothing`), so there is no other way
to read what is written.
-/

namespace Jhalfs.Scripts

open Text

/-! ## The template -/

/-- Which test suites are run: `testsuite`, from 0 to 3. With `critical` these are the ones of
the packages that the others are built with. -/
inductive Testsuite where
  | none
  | critical
  | chapter06
  | all

/-- The pages of the critical test suites, and the others. -/
inductive TestPage where
  | gcc
  | glibc
  | gmp
  | mpfr
  | binutils
  | other
  deriving DecidableEq

/-- What decides how a test is written. -/
structure TestParams where
  testsuite : Testsuite
  /-- `bomb-testsuite` is not `n`. -/
  bombTestsuite : Bool
  page : TestPage
  /-- The page is in the chapter of the temporary tools. -/
  temporaryTools : Bool

/-- The lines are written as comments. -/
def commented (P : TestParams) : Bool :=
  match P.testsuite with
  | .none => true
  | .critical => P.page == .other
  | .chapter06 => P.temporaryTools
  | .all => false

def toLog : List Char := " >> $TEST_LOG 2>&1".toList

def toLogOrTrue : List Char := " >> $TEST_LOG 2>&1 || true".toList

/-- The test of the branches that look at the line. -/
def mayRedirect (eofSeen : Bool) (instructions : List Char) : Bool :=
  !contains instructions ">>".toList && !eofSeen && instructions.getLast? != some '\\'

/-- `comment-test` for one line; `whole` is the text of the instruction, which one of the
branches looks at in place of the line. -/
def commentTestLine (P : TestParams) (whole : List Char) (eofSeen : Bool)
    (instructions : List Char) : List Char :=
  (if commented P then "# ".toList else []) ++
    if !P.bombTestsuite then
      -- this test is about the whole text, the others are about the line
      if contains whole "make -k".toList then
        instructions ++ (if !eofSeen then toLogOrTrue else []) ++ "\n".toList
      -- a backslash is not looked for here
      else if contains instructions "make".toList then
        substringBefore instructions "make".toList ++ "make -k".toList ++
          substringAfter instructions "make".toList ++
          (if !eofSeen then toLogOrTrue else []) ++ "\n".toList
      else
        instructions ++ (if mayRedirect eofSeen instructions then toLogOrTrue else []) ++
          "\n".toList
    else
      if contains instructions "make -k".toList then
        instructions ++ (if !eofSeen then toLogOrTrue else []) ++ "\n".toList
      else
        instructions ++ (if mayRedirect eofSeen instructions then toLog else []) ++ "\n".toList

/-- `comment-test`, from a line on. -/
def commentTestFrom (P : TestParams) (whole : List Char) (eofSeen : Bool)
    (instructions : List Char) : List Char :=
  if contains instructions ['\n'] then
    commentTestFrom P whole eofSeen (substringBefore instructions ['\n']) ++
      -- an `EOF` opens a here-document or closes one, for the lines after it
      if contains (substringBefore instructions ['\n']) "EOF".toList then
        commentTestFrom P whole (!eofSeen) (substringAfter instructions ['\n'])
      else
        commentTestFrom P whole eofSeen (substringAfter instructions ['\n'])
  else commentTestLine P whole eofSeen instructions
termination_by instructions.length
decreasing_by
  · exact length_substringBefore_lt (ne_nil_of_contains ‹_› (by decide)) (by decide)
  · exact length_substringAfter_lt (ne_nil_of_contains ‹_› (by decide)) (by decide)
  · exact length_substringAfter_lt (ne_nil_of_contains ‹_› (by decide)) (by decide)

/-- `comment-test`, called with the text of the instruction. -/
def commentTest (P : TestParams) (s : List Char) : List Char := commentTestFrom P s false s

/-! ## Lines that stay intact -/

/-- What is appended to a line. -/
inductive Tail where
  | nothing
  | log
  | logOrTrue
  deriving DecidableEq

def Tail.text : Tail → List Char
  | .nothing => []
  | .log => toLog
  | .logOrTrue => toLogOrTrue

/-- What is done to a line: `# ` in front, `-k` behind its first `make`, and a redirection at
its end. The line itself is kept. -/
structure Rewrite where
  comment : Bool
  /-- `make -k` for the first `make`. -/
  keepGoing : Bool
  tail : Tail

def keepGoing (l : List Char) : List Char :=
  if contains l "make".toList then
    substringBefore l "make".toList ++ "make -k".toList ++ substringAfter l "make".toList
  else l

/-- The line that is written for a line. -/
def Rewrite.apply (w : Rewrite) (l : List Char) : List Char :=
  (if w.comment then "# ".toList else []) ++
    ((if w.keepGoing then Scripts.keepGoing l else l) ++ w.tail.text)

def hasEof (l : List Char) : Bool := contains l "EOF".toList

/-- The line stands in a here-document: an odd number of `EOF` lines before it. The line that
closes the document is in it. -/
def inHereDoc (ls : List (List Char)) (i : Nat) : Bool := (ls.take i).countP hasEof % 2 == 1

/-- **Commands on several lines stay intact**: the text is written line by line, commented out
as a whole or not at all, and no line that goes on or stands in a here-document has a
redirection. -/
def Intact (P : TestParams) (s : List Char) : Prop :=
  ∃ ws : List Rewrite, ws.length = (lines s).length ∧
    commentTest P s = (ws.zipWith Rewrite.apply (lines s)).flatMap (· ++ ['\n']) ∧
    (∃ c, ∀ w ∈ ws, w.comment = c) ∧
    ∀ (i : Nat) l w, (lines s)[i]? = some l → ws[i]? = some w →
      (l.getLast? = some '\\' ∨ inHereDoc (lines s) i = true) → w.tail = .nothing

/-- A redirection is appended without a look at the backslash. -/
def redirectsAlways (P : TestParams) (whole l : List Char) : Bool :=
  if P.bombTestsuite then contains l "make -k".toList
  else contains whole "make -k".toList || contains l "make".toList

/-- No line that goes on gets a redirection: outside here-documents a line that ends with a
backslash does not call a make for which one is appended. -/
def NoneCut (P : TestParams) (s : List Char) : Prop :=
  ∀ (i : Nat) l, (lines s)[i]? = some l → inHereDoc (lines s) i = false →
    l.getLast? = some '\\' → redirectsAlways P s l = false

/-! ## What is written -/

/-- What the template does to a line. -/
def rewriteOf (P : TestParams) (whole : List Char) (eofSeen : Bool) (l : List Char) : Rewrite where
  comment := commented P
  keepGoing := !P.bombTestsuite && !contains whole "make -k".toList
  tail :=
    if redirectsAlways P whole l then if eofSeen then .nothing else .logOrTrue
    else if mayRedirect eofSeen l then if P.bombTestsuite then .log else .logOrTrue
    else .nothing

theorem commentTestLine_eq (P : TestParams) (whole : List Char) (eofSeen : Bool) (l : List Char) :
    commentTestLine P whole eofSeen l = (rewriteOf P whole eofSeen l).apply l ++ ['\n'] := by
  unfold commentTestLine Rewrite.apply rewriteOf redirectsAlways keepGoing
  cases P.bombTestsuite with
  | false =>
    cases hwhole : contains whole "make -k".toList with
    | true => cases eofSeen <;> simp [Tail.text]
    | false =>
      cases hl : contains l "make".toList with
      | true => cases eofSeen <;> simp [Tail.text]
      | false => cases mayRedirect eofSeen l <;> simp [Tail.text]
  | true =>
    cases hl : contains l "make -k".toList with
    | true => cases eofSeen <;> simp [Tail.text]
    | false => cases mayRedirect eofSeen l <;> simp [Tail.text]

/-- What the template does to the lines, with the flag for here-documents handed from line to
line. -/
def rewrites (P : TestParams) (whole : List Char) (eofSeen : Bool) :
    List (List Char) → List Rewrite
  | [] => []
  | l :: ls => rewriteOf P whole eofSeen l :: rewrites P whole (eofSeen ^^ hasEof l) ls

theorem length_rewrites (P : TestParams) (whole : List Char) (eofSeen : Bool)
    (ls : List (List Char)) : (rewrites P whole eofSeen ls).length = ls.length := by
  induction ls generalizing eofSeen with
  | nil => rfl
  | cons l ls ih => exact congrArg (· + 1) (ih _)

theorem comment_of_mem_rewrites {P : TestParams} {whole : List Char} {eofSeen : Bool}
    {ls : List (List Char)} {w : Rewrite} (h : w ∈ rewrites P whole eofSeen ls) :
    w.comment = commented P := by
  induction ls generalizing eofSeen with
  | nil => cases h
  | cons l ls ih =>
    rcases List.mem_cons.mp h with rfl | hw
    · rfl
    · exact ih hw

theorem inHereDoc_zero (ls : List (List Char)) : inHereDoc ls 0 = false := rfl

theorem inHereDoc_cons_succ (l : List Char) (ls : List (List Char)) (i : Nat) :
    inHereDoc (l :: ls) (i + 1) = (hasEof l ^^ inHereDoc ls i) := by
  rw [inHereDoc, inHereDoc, List.take_succ_cons, List.countP_cons]
  cases hasEof l with
  | false => simp
  | true =>
    rw [if_pos rfl, Bool.true_xor, Bool.eq_iff_iff]
    simp
    omega

/-- The flag at a line is the number of `EOF` lines before it. -/
theorem getElem?_rewrites (P : TestParams) (whole : List Char) (eofSeen : Bool)
    (ls : List (List Char)) (i : Nat) : (rewrites P whole eofSeen ls)[i]? =
      ls[i]?.map (rewriteOf P whole (eofSeen ^^ inHereDoc ls i)) := by
  induction ls generalizing eofSeen i with
  | nil => rfl
  | cons l ls ih =>
    cases i with
    | zero =>
      rw [inHereDoc_zero, Bool.xor_false]
      rfl
    | succ i =>
      rw [rewrites, List.getElem?_cons_succ, List.getElem?_cons_succ, ih, inHereDoc_cons_succ,
        Bool.xor_assoc]

theorem commentTestFrom_eq (P : TestParams) (whole : List Char) (eofSeen : Bool) (s : List Char) :
    commentTestFrom P whole eofSeen s =
      ((rewrites P whole eofSeen (lines s)).zipWith Rewrite.apply (lines s)).flatMap
        (· ++ ['\n']) := by
  fun_induction commentTestFrom P whole eofSeen s with
  | case1 eofSeen s hcut ihBefore ihClose ihAfter =>
    obtain ⟨b, a, rfl, hb⟩ := List.eq_append_cons_of_mem (contains_singleton_iff.mp hcut)
    rw [substringBefore_singleton hb] at ihBefore ⊢
    rw [substringAfter_singleton hb] at ihClose ihAfter ⊢
    have hlines : lines (b ++ '\n' :: a) = b :: lines a := by
      rw [lines_append_newline, lines_of_notMem hb]
      rfl
    -- the flag for the lines after this one
    have hafter : (if contains b "EOF".toList then commentTestFrom P whole (!eofSeen) a
        else commentTestFrom P whole eofSeen a) =
        ((rewrites P whole (eofSeen ^^ hasEof b) (lines a)).zipWith Rewrite.apply
          (lines a)).flatMap (· ++ ['\n']) := by
      cases heof : contains b "EOF".toList with
      | true =>
        rw [if_pos rfl, ihClose, hasEof, heof, Bool.xor_true]
      | false =>
        rw [if_neg Bool.false_ne_true, ihAfter, hasEof, heof, Bool.xor_false]
    rw [hafter, ihBefore, hlines, lines_of_notMem hb, rewrites, rewrites, rewrites,
      List.zipWith_cons_cons, List.zipWith_cons_cons, List.flatMap_cons, List.flatMap_cons]
    simp
  | case2 eofSeen s hcut =>
    have hs : '\n' ∉ s := fun h => hcut (contains_singleton_iff.mpr h)
    rw [commentTestLine_eq, lines_of_notMem hs]
    simp [rewrites]

/-! ## When the lines stay intact -/

section Rewrite

variable {P : TestParams} {whole l : List Char}

theorem tail_of_eofSeen : (rewriteOf P whole true l).tail = .nothing := by
  rw [rewriteOf, mayRedirect]
  simp

/-- Behind a backslash a redirection is appended only without a look. -/
theorem tail_of_backslash (hl : l.getLast? = some '\\') :
    (rewriteOf P whole false l).tail = .nothing ↔ redirectsAlways P whole l = false := by
  have hnot : mayRedirect false l = false := by
    rw [mayRedirect, hl]
    simp
  rw [rewriteOf, hnot]
  cases redirectsAlways P whole l with
  | false => exact iff_of_true rfl rfl
  | true => exact iff_of_false (by simp) (by simp)

theorem length_keepGoing (l : List Char) :
    l.length ≤ (keepGoing l).length ∧ (keepGoing l).length ≤ l.length + 3 := by
  rw [keepGoing]
  split
  · next h =>
    have hlen := length_eq_of_contains h
    have hword : "make".toList.length = 4 := rfl
    have hword' : "make -k".toList.length = 7 := rfl
    simp only [List.length_append]
    omega
  · omega

theorem length_apply (w : Rewrite) (l : List Char) :
    l.length + w.tail.text.length ≤ (w.apply l).length ∧
      (w.apply l).length ≤ l.length + 5 + w.tail.text.length := by
  have hkeep := length_keepGoing l
  have hcomment : "# ".toList.length = 2 := rfl
  have hbody : l.length ≤ (if w.keepGoing then keepGoing l else l).length ∧
      (if w.keepGoing then keepGoing l else l).length ≤ l.length + 3 := by
    split
    · exact hkeep
    · omega
  rw [Rewrite.apply, List.length_append, List.length_append]
  split
  · omega
  · rw [List.length_nil]
    omega

/-- A line with a redirection is longer than the same line without. -/
theorem tail_eq_nothing {w w' : Rewrite} (h : w.apply l = w'.apply l) (hw : w.tail = .nothing) :
    w'.tail = .nothing := by
  have hle := (length_apply w l).2
  have hge := (length_apply w' l).1
  rw [h, hw] at hle
  have hnothing : Tail.nothing.text.length = 0 := rfl
  cases htail : w'.tail with
  | nothing => rfl
  | log =>
    have hlog : Tail.log.text.length = 18 := rfl
    rw [htail] at hge
    omega
  | logOrTrue =>
    have hlog : Tail.logOrTrue.text.length = 26 := rfl
    rw [htail] at hge
    omega

theorem notMem_apply (w : Rewrite) (h : '\n' ∉ l) : '\n' ∉ w.apply l := by
  have hkeep : '\n' ∉ keepGoing l := by
    rw [keepGoing]
    split
    · next hmake =>
      rw [eq_of_contains hmake] at h
      simp only [List.mem_append, not_or] at h ⊢
      exact ⟨⟨h.1.1, by decide⟩, h.2⟩
    · exact h
  have htail : '\n' ∉ w.tail.text := by
    cases w.tail with
    | nothing => decide
    | log => decide
    | logOrTrue => decide
  rw [Rewrite.apply, List.mem_append, List.mem_append, not_or, not_or]
  refine ⟨?_, ?_, htail⟩
  · cases w.comment <;> simp
  · cases w.keepGoing with
    | false => exact h
    | true => exact hkeep

end Rewrite

theorem notMem_of_mem_apply {ws : List Rewrite} {ls : List (List Char)}
    (h : ∀ l ∈ ls, '\n' ∉ l) : ∀ l ∈ ws.zipWith Rewrite.apply ls, '\n' ∉ l := by
  intro k hk
  obtain ⟨i, hi, rfl⟩ := List.getElem_of_mem hk
  rw [List.getElem_zipWith]
  exact notMem_apply _ (h _ (List.getElem_mem _))

/-- Equal texts are written for the lines one by one. -/
theorem apply_eq_of_flatMap_eq {ws ws' : List Rewrite} {ls : List (List Char)}
    (hls : ∀ l ∈ ls, '\n' ∉ l)
    (h : (ws.zipWith Rewrite.apply ls).flatMap (· ++ ['\n']) =
      (ws'.zipWith Rewrite.apply ls).flatMap (· ++ ['\n']))
    {i : Nat} {l : List Char} {w w' : Rewrite} (hl : ls[i]? = some l) (hw : ws[i]? = some w)
    (hw' : ws'[i]? = some w') : w.apply l = w'.apply l := by
  have hlines := congrArg lines h
  rw [lines_flatMap (notMem_of_mem_apply hls), lines_flatMap (notMem_of_mem_apply hls)] at hlines
  have heq := congrArg (·[i]?) (List.append_cancel_right hlines)
  simp only [List.getElem?_zipWith, hl, hw, hw'] at heq
  exact Option.some.inj heq

theorem intact_of_noneCut {P : TestParams} {s : List Char} (h : NoneCut P s) : Intact P s := by
  refine ⟨rewrites P s false (lines s), length_rewrites P s false _, commentTestFrom_eq P s false s,
    ⟨commented P, fun w hw => comment_of_mem_rewrites hw⟩, fun i l w hl hw hline => ?_⟩
  rw [getElem?_rewrites, hl, Option.map_some, Option.some.injEq, Bool.false_xor] at hw
  subst hw
  cases hdoc : inHereDoc (lines s) i with
  | true => exact tail_of_eofSeen
  | false =>
    rcases hline with hback | htrue
    · exact (tail_of_backslash hback).mpr (h i l hl hdoc hback)
    · rw [hdoc] at htrue
      cases htrue

theorem noneCut_of_intact {P : TestParams} {s : List Char} (h : Intact P s) : NoneCut P s := by
  obtain ⟨ws, hlen, htext, -, htail⟩ := h
  rw [commentTest, commentTestFrom_eq] at htext
  intro i l hl hdoc hback
  obtain ⟨hi, -⟩ := List.getElem?_eq_some_iff.mp hl
  have hw : ws[i]? = some ws[i] := List.getElem?_eq_getElem (hlen ▸ hi)
  have hw' : (rewrites P s false (lines s))[i]? = some (rewriteOf P s false l) := by
    rw [getElem?_rewrites, hl, hdoc]
    rfl
  -- what is said to be done to the line, and what is done to it, give one text
  have hsame := apply_eq_of_flatMap_eq (fun k hk => notMem_of_mem_lines hk) htext.symm hl hw hw'
  exact (tail_of_backslash hback).mp
    (tail_eq_nothing hsame (htail i l ws[i] hl hw (Or.inl hback)))

/-- **When commands on several lines stay intact.** No line that ends with a backslash may come to a
branch that appends a redirection without a look at it. -/
theorem intact_iff (P : TestParams) (s : List Char) : Intact P s ↔ NoneCut P s :=
  ⟨noneCut_of_intact, intact_of_noneCut⟩

/-- A `make` that goes on in the next line is cut off from it. -/
theorem makeCheck_not_intact :
    ¬ Intact ⟨.all, false, .other, false⟩ "make check \\\n  VERBOSE=1".toList := by
  intro h
  have hline := noneCut_of_intact h 0 "make check \\".toList
  revert hline
  decide

end Jhalfs.Scripts
