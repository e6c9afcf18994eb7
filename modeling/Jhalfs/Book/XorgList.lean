import Jhalfs.Base.Cut

/-!
# The list of the Xorg packages

A page of the Xorg chapter installs many packages, and has one list with their digests. When
a page is made for one of them (`sect1`, mode `xorg`, BLFS/xsl/make_book.xsl:500–522), the
templates `tarball` and `md5sum` look in the list for `' <name>-'`: they drop lines as long
as the pattern comes on a later one, and then the first one drops words.

- `Row` and `Listing`: the rows of the list, with the command before them and perhaps a line
  behind them. The names are pairwise different.
- `tarball` and `md5sum`: the two templates, on the text of the list.
- `OwnLine`: both find what the row of the package says.
- `Finds`: the first line with the pattern is a row with the same file and digest, and it is
  ended by a further line.

Both templates end up in the first line with the pattern (`tarball_of_first`,
`md5sum_of_first`); `drop_to_row` is the part of the argument that they share, by induction
on the rows before it. The pattern is found in the rows whose file begins with the name and a
hyphen (`contains_line_iff`). This is a line of another package when a name goes on with a
hyphen, as `xcb-util-image` before `xcb-util`.

**Main result**: `ownLine_iff` says when the line that is found is the right one.
-/

namespace Jhalfs.Book

open Text

/-! ## The list -/

/-- A digit of `md5sum`. -/
def isHexDigit (c : Char) : Bool := "0123456789abcdef".toList.contains c

def isWordChar (c : Char) : Bool := c != ' ' && c != '\n'

/-- A line of the list: a digest, and the name and version of a file. Name and version are one word,
so the only blanks of a line are those between the digest and the file. -/
structure Row where
  digest : List Char
  name : List Char
  version : List Char
  nonempty : digest ≠ []
  hex : digest.all isHexDigit = true
  word : (name ++ version).all isWordChar = true

namespace Row

variable (r : Row)

/-- The name of the file. -/
def file : List Char := r.name ++ '-' :: (r.version ++ ".tar.bz2".toList)

def line : List Char := r.digest ++ ' ' :: ' ' :: r.file

/-- What the templates look for: `concat(' ',$package,'-')`. -/
def package : List Char := ' ' :: (r.name ++ ['-'])

end Row

/-- The rest of the list, from the end of a line on. Something may come after the last row,
such as a line `EOF`. -/
def below : List Row → Option (List Char) → List Char
  | [], none => []
  | [], some rest => '\n' :: rest
  | r :: rows, rest => '\n' :: (r.line ++ below rows rest)

/-- `cat > …` and the rows. -/
structure Listing where
  header : List Char
  rows : List Row
  rest : Option (List Char)
  cat : "cat ".toList <+: header
  line : '\n' ∉ header
  names : (rows.map Row.name).Nodup

/-- The content of the `userinput`. -/
def Listing.text (l : Listing) : List Char := l.header ++ below l.rows l.rest

/-! ## The templates -/

/-- `tarball` (make_book.xsl:605–637). -/
def tarball (package catMd5 : List Char) : List Char :=
  if contains (substringBefore catMd5 package) ['\n'] then
    tarball package (substringAfter catMd5 ['\n'])
  else if contains (substringBefore catMd5 package) [' '] then
    tarball package (substringAfter catMd5 [' '])
  else substringAfter (substringBefore catMd5 ['\n']) [' ']
termination_by catMd5.length
decreasing_by
  all_goals
    refine length_substringAfter_lt ?_ (List.cons_ne_nil _ _)
    exact ne_nil_of_contains_before (List.cons_ne_nil _ _) ‹_›

/-- `md5sum` (make_book.xsl:665–681). -/
def md5sum (package catMd5 : List Char) : List Char :=
  if contains (substringBefore catMd5 package) ['\n'] then
    md5sum package (substringAfter catMd5 ['\n'])
  else substringBefore catMd5 "  ".toList
termination_by catMd5.length
decreasing_by
  refine length_substringAfter_lt ?_ (List.cons_ne_nil _ _)
  exact ne_nil_of_contains_before (List.cons_ne_nil _ _) ‹_›

/-- The page gets the file and the digest of the row: what the templates find under the name of the
package is what its own row says. -/
def OwnLine (l : Listing) (r : Row) : Prop :=
  tarball r.package l.text = r.file ∧ md5sum r.package l.text = r.digest

/-- The first line in which the pattern is found is a row with the same file and digest, and
it is ended. -/
structure Finds (l : Listing) (r : Row) : Prop where
  header : ¬ contains l.header r.package = true
  first : ∃ before q after, l.rows = before ++ q :: after ∧
    (∀ p ∈ before, ¬ r.name ++ ['-'] <+: p.file) ∧ q.file = r.file ∧ q.digest = r.digest ∧
      (after ≠ [] ∨ l.rest.isSome = true)

/-! ## Rows -/

section Rows

variable (r q : Row)

theorem blank_notMem_digest : ' ' ∉ r.digest := fun h =>
  absurd (List.all_eq_true.mp r.hex _ h) (by decide)

theorem newline_notMem_digest : '\n' ∉ r.digest := fun h =>
  absurd (List.all_eq_true.mp r.hex _ h) (by decide)

theorem all_file : r.file.all isWordChar = true := by
  have hword := r.word
  rw [List.all_append, Bool.and_eq_true] at hword
  rw [Row.file, List.all_append, List.all_cons, List.all_append, hword.1, hword.2]
  rfl

theorem blank_notMem_file : ' ' ∉ r.file := fun h =>
  absurd (List.all_eq_true.mp (all_file r) _ h) (by decide)

theorem newline_notMem_file : '\n' ∉ r.file := fun h =>
  absurd (List.all_eq_true.mp (all_file r) _ h) (by decide)

theorem newline_notMem_line : '\n' ∉ r.line := by
  rw [Row.line, List.mem_append, List.mem_cons, List.mem_cons]
  rintro (h | h | h | h)
  · exact newline_notMem_digest r h
  · simp at h
  · simp at h
  · exact newline_notMem_file r h

theorem newline_notMem_package : '\n' ∉ r.package := by
  rw [Row.package, List.mem_cons, List.mem_append, List.mem_singleton]
  rintro (h | h | h)
  · simp at h
  · exact absurd (List.all_eq_true.mp r.word _ (List.mem_append_left _ h)) (by decide)
  · simp at h

/-- The name does not begin with a blank. -/
theorem not_isPrefix_blank (s : List Char) : ¬ r.name ++ ['-'] <+: ' ' :: s := by
  intro h
  cases hname : r.name with
  | nil =>
    rw [hname] at h
    have heq := (List.cons_prefix_cons.mp h).1
    simp at heq
  | cons c name =>
    have hword := r.word
    rw [hname] at h hword
    rw [(List.cons_prefix_cons.mp h).1] at hword
    simp [isWordChar] at hword

/-- The pattern is found in the lines whose file begins with the name and a hyphen. -/
theorem contains_line_iff :
    contains q.line r.package = true ↔ r.name ++ ['-'] <+: q.file := by
  rw [contains_iff, Row.line, Row.package, infix_append_cons_iff (blank_notMem_digest q),
    or_iff_right (not_isPrefix_blank r _), List.infix_cons_iff, List.cons_prefix_cons,
    and_iff_right rfl, or_iff_left]
  exact fun h => blank_notMem_file q (h.subset List.mem_cons_self)

end Rows

/-! ## The line that is found -/

section Lines

variable {package : List Char}

/-- The pattern comes on a later line. -/
theorem before_next (hpackage : '\n' ∉ package) (hne : package ≠ []) {u t : List Char}
    (hline : '\n' ∉ u) (hu : ¬ contains u package = true) (ht : contains t package = true) :
    contains (substringBefore (u ++ '\n' :: t) package) ['\n'] = true ∧
      substringAfter (u ++ '\n' :: t) ['\n'] = t := by
  refine ⟨?_, substringAfter_singleton hline⟩
  rw [(cut_append_right hne hpackage hu ht).1, contains_singleton_iff]
  exact List.mem_append_right _ List.mem_cons_self

theorem below_eq (rows : List Row) (rest : Option (List Char)) :
    below rows rest = [] ∨ ∃ t, below rows rest = '\n' :: t := by
  cases rows with
  | nil =>
    cases rest with
    | none => exact Or.inl rfl
    | some rest => exact Or.inr ⟨rest, rfl⟩
  | cons r rows => exact Or.inr ⟨_, rfl⟩

/-- The pattern is on the first line. -/
theorem before_here (hpackage : '\n' ∉ package) (hne : package ≠ []) {u : List Char}
    (hu : contains u package = true) (rows : List Row) (rest : Option (List Char)) :
    substringBefore (u ++ below rows rest) package = substringBefore u package := by
  rcases below_eq rows rest with h | ⟨t, h⟩
  · rw [h, List.append_nil]
  · rw [h, (cut_append_left hne hpackage hu).1]

theorem not_newline_before {u : List Char} (hline : '\n' ∉ u) :
    ¬ contains (substringBefore u package) ['\n'] = true := by
  rw [contains_singleton_iff]
  exact fun h => hline ((isPrefix_substringBefore u package).subset h)

theorem contains_below {q : Row} (hq : contains q.line package = true) (before after : List Row)
    (rest : Option (List Char)) :
    contains (below (before ++ q :: after) rest) package = true := by
  refine contains_mono hq ?_
  induction before with
  | nil => exact (List.prefix_append _ _).isInfix.trans (List.suffix_cons _ _).isInfix
  | cons p before ih =>
    exact ih.trans ((List.suffix_append _ _).trans (List.suffix_cons _ _)).isInfix

/-- A template that drops lines comes to the first row with the pattern. -/
theorem drop_to_row {template : List Char → List Char}
    (htemplate : ∀ s, contains (substringBefore s package) ['\n'] = true →
      template s = template (substringAfter s ['\n']))
    (hpackage : '\n' ∉ package) (hne : package ≠ []) {q : Row}
    (hq : contains q.line package = true) {before : List Row}
    (hbefore : ∀ p ∈ before, ¬ contains p.line package = true) {u : List Char}
    (hline : '\n' ∉ u) (hu : ¬ contains u package = true) (after : List Row)
    (rest : Option (List Char)) :
    template (u ++ below (before ++ q :: after) rest) = template (q.line ++ below after rest) := by
  induction before generalizing u with
  | nil =>
    have ht : contains (q.line ++ below after rest) package = true :=
      contains_mono hq (List.prefix_append _ _).isInfix
    obtain ⟨hnext, hafter⟩ := before_next hpackage hne hline hu ht
    rw [List.nil_append, below, htemplate _ hnext, hafter]
  | cons p before ih =>
    rw [List.forall_mem_cons] at hbefore
    have ht : contains (p.line ++ below (before ++ q :: after) rest) package = true :=
      contains_mono (contains_below hq before after rest) (List.suffix_append _ _).isInfix
    obtain ⟨hnext, hafter⟩ := before_next hpackage hne hline hu ht
    rw [List.cons_append, below, htemplate _ hnext, hafter]
    exact ih hbefore.2 (newline_notMem_line p) hbefore.1

end Lines

section First

variable {r q : Row} {l : Listing}

theorem md5sum_next {s : List Char} {package : List Char}
    (h : contains (substringBefore s package) ['\n'] = true) :
    md5sum package s = md5sum package (substringAfter s ['\n']) := by
  rw [md5sum, if_pos h]

theorem tarball_next {s : List Char} {package : List Char}
    (h : contains (substringBefore s package) ['\n'] = true) :
    tarball package s = tarball package (substringAfter s ['\n']) := by
  rw [tarball, if_pos h]

/-- The digest of the line. -/
theorem md5sum_row (hq : contains q.line r.package = true) (rows : List Row)
    (rest : Option (List Char)) :
    md5sum r.package (q.line ++ below rows rest) = q.digest := by
  have hbefore := before_here (newline_notMem_package r) (List.cons_ne_nil _ _) hq rows rest
  have hcut : cut "  ".toList (q.line ++ below rows rest) =
      some (q.digest, q.file ++ below rows rest) := by
    have hline : q.line ++ below rows rest =
        q.digest ++ ("  ".toList ++ (q.file ++ below rows rest)) := by
      rw [Row.line, List.append_assoc]
      rfl
    rw [hline]
    exact cut_append_of_notMem (blank_notMem_digest q)
  rw [md5sum, hbefore, if_neg (not_newline_before (newline_notMem_line q)), substringBefore, hcut]

/-- There is a blank before the pattern. -/
theorem blank_before (hq : contains q.line r.package = true) :
    contains (substringBefore q.line r.package) [' '] = true := by
  rw [contains_singleton_iff]
  by_contra hblank
  have hline : substringBefore q.line r.package ++ ' ' ::
      (r.name ++ ['-'] ++ substringAfter q.line r.package) = q.line := by
    have heq := eq_of_contains hq
    rw [List.append_assoc] at heq
    exact heq.symm
  -- then the pattern would begin with both blanks
  have hcut := cut_singleton (v := r.name ++ ['-'] ++ substringAfter q.line r.package) hblank
  rw [hline, Row.line, cut_singleton (blank_notMem_digest q)] at hcut
  have hrest := (Prod.mk.inj (Option.some.inj hcut)).2
  exact not_isPrefix_blank r q.file (hrest ▸ List.prefix_append _ _)

/-- The file of the line, if the line is ended. -/
theorem tarball_row (hq : contains q.line r.package = true) (rows : List Row)
    (rest : Option (List Char)) : tarball r.package (q.line ++ below rows rest) =
      if below rows rest = [] then [] else q.file := by
  have hbefore := before_here (newline_notMem_package r) (List.cons_ne_nil _ _) hq rows rest
  have hline : q.line ++ below rows rest =
      q.digest ++ ' ' :: (' ' :: (q.file ++ below rows rest)) := by
    rw [Row.line, List.append_assoc]
    rfl
  have hafter : substringAfter (q.line ++ below rows rest) [' '] =
      ' ' :: (q.file ++ below rows rest) := by
    rw [hline, substringAfter_singleton (blank_notMem_digest q)]
  obtain ⟨w, hw⟩ := (contains_line_iff r q).mp hq
  -- the second call starts at the name, so nothing stands before it
  have hnone : substringBefore (' ' :: (q.file ++ below rows rest)) r.package = [] := by
    have hstart : ' ' :: (q.file ++ below rows rest) =
        r.package ++ (w ++ below rows rest) := by
      rw [← hw, Row.package]
      simp
    rw [substringBefore, hstart, cut_isPrefix]
  have hnil : ∀ c : Char, ¬ contains ([] : List Char) [c] = true := fun c h =>
    List.not_mem_nil (contains_singleton_iff.mp h)
  rw [tarball, hbefore, if_neg (not_newline_before (newline_notMem_line q)),
    if_pos (blank_before hq), hafter, tarball, hnone, if_neg (hnil _), if_neg (hnil _)]
  have hword : '\n' ∉ ' ' :: q.file := by
    rw [List.mem_cons, not_or]
    exact ⟨by decide, newline_notMem_file q⟩
  rcases below_eq rows rest with h | ⟨t, h⟩
  · rw [if_pos h, h, List.append_nil, substringBefore_of_not (mt contains_singleton_iff.mp hword),
      substringAfter_of_not (hnil _)]
  · rw [if_neg (h ▸ List.cons_ne_nil _ _), h, ← List.cons_append, substringBefore_singleton hword]
    exact substringAfter_singleton (u := []) List.not_mem_nil

section Found

variable {before after : List Row} (hrows : l.rows = before ++ q :: after)
  (hheader : ¬ contains l.header r.package = true) (hq : contains q.line r.package = true)
  (hbefore : ∀ p ∈ before, ¬ contains p.line r.package = true)

include hrows hheader hq hbefore

theorem md5sum_of_first : md5sum r.package l.text = q.digest := by
  rw [Listing.text, hrows, drop_to_row (fun _ => md5sum_next) (newline_notMem_package r)
    (List.cons_ne_nil _ _) hq hbefore l.line hheader]
  exact md5sum_row hq after l.rest

theorem tarball_of_first : tarball r.package l.text =
    if below after l.rest = [] then [] else q.file := by
  rw [Listing.text, hrows, drop_to_row (fun _ => tarball_next) (newline_notMem_package r)
    (List.cons_ne_nil _ _) hq hbefore l.line hheader]
  exact tarball_row hq after l.rest

end Found

theorem below_eq_nil_iff {rows : List Row} {rest : Option (List Char)} :
    below rows rest = [] ↔ ¬ (rows ≠ [] ∨ rest.isSome = true) := by
  cases rows with
  | nil =>
    cases rest with
    | none => simp [below]
    | some rest => simp [below]
  | cons r rows => simp [below]

/-- With the pattern in the first line the digest would begin with `cat`. -/
theorem header_of_md5sum (h : md5sum r.package l.text = r.digest) :
    ¬ contains l.header r.package = true := by
  intro hheader
  obtain ⟨s, hs⟩ := l.cat
  have hbefore := before_here (newline_notMem_package r) (List.cons_ne_nil _ _) hheader l.rows
    l.rest
  rw [Listing.text, md5sum, hbefore, if_neg (not_newline_before l.line), ← hs] at h
  by_cases hblanks : contains ("cat ".toList ++ s ++ below l.rows l.rest) "  ".toList = true
  · have heq := eq_of_contains hblanks
    rw [h] at heq
    rcases hdigest : r.digest with _ | ⟨c, _ | ⟨d, _ | ⟨e, ds⟩⟩⟩
    · exact r.nonempty hdigest
    · rw [hdigest] at heq
      simp at heq
    · rw [hdigest] at heq
      simp at heq
    · have ht : e = 't' := by
        rw [hdigest] at heq
        simp at heq
        exact heq.2.2.1.symm
      have hhex := r.hex
      rw [hdigest, ht] at hhex
      simp [isHexDigit] at hhex
  · rw [substringBefore_of_not hblanks] at h
    exact r.nonempty h.symm

end First

/-- **When the page gets its own line.** From left to right, the digest that is found tells that the
first line with the pattern is a row, and the file that it is ended. -/
theorem ownLine_iff (l : Listing) (r : Row) (hr : r ∈ l.rows) :
    OwnLine l r ↔ Finds l r := by
  have hown : contains r.line r.package = true := by
    rw [contains_line_iff, Row.file]
    exact ⟨r.version ++ ".tar.bz2".toList, by simp⟩
  constructor
  · rintro ⟨htarball, hmd5sum⟩
    have hheader := header_of_md5sum hmd5sum
    have hsome : (l.rows.find? fun q => contains q.line r.package).isSome = true :=
      List.find?_isSome.mpr ⟨r, hr, hown⟩
    obtain ⟨q, hq⟩ := Option.isSome_iff_exists.mp hsome
    -- the template stops at the first line that has the name of the package anywhere
    obtain ⟨hfound, before, after, hrows, hbefore⟩ := List.find?_eq_some_iff_append.mp hq
    have hnot : ∀ p ∈ before, ¬ contains p.line r.package = true := fun p hp h => by
      have hno := hbefore p hp
      rw [h] at hno
      cases hno
    rw [md5sum_of_first hrows hheader hfound hnot] at hmd5sum
    rw [tarball_of_first hrows hheader hfound hnot] at htarball
    -- at the last line of the list there is no newline to cut at, and the name is empty
    have hended : ¬ below after l.rest = [] := fun hnil => by
      rw [if_pos hnil, Row.file] at htarball
      simp at htarball
    rw [if_neg hended] at htarball
    refine ⟨hheader, before, q, after, hrows, fun p hp => ?_, htarball, hmd5sum, ?_⟩
    · exact mt (contains_line_iff r p).mpr (hnot p hp)
    · exact not_not.mp (mt below_eq_nil_iff.mpr hended)
  · rintro ⟨hheader, before, q, after, hrows, hbefore, hfile, hdigest, hended⟩
    have hfound : contains q.line r.package = true := by
      rw [contains_line_iff, hfile, ← contains_line_iff]
      exact hown
    have hnot : ∀ p ∈ before, ¬ contains p.line r.package = true :=
      fun p hp => mt (contains_line_iff r p).mp (hbefore p hp)
    refine ⟨?_, ?_⟩
    · rw [tarball_of_first hrows hheader hfound hnot,
        if_neg (mt below_eq_nil_iff.mp (not_not.mpr hended)), hfile]
    · rw [md5sum_of_first hrows hheader hfound hnot, hdigest]

/-- `xcb-util-image` and then `xcb-util`. -/
def xcbImage : Row :=
  ⟨"08fe8ffecc8d4e37c0ade7906b3f4c87".toList, "xcb-util-image".toList, "0.4.0".toList,
    by decide, by decide, by decide⟩

def xcbUtil : Row :=
  ⟨"2e97feed81919465a04ccc71e4073313".toList, "xcb-util".toList, "0.4.0".toList,
    by decide, by decide, by decide⟩

def xcbListing : Listing :=
  ⟨"cat > util.md5 << \"EOF\"".toList, [xcbImage, xcbUtil], some "EOF".toList,
    by decide, by decide, by decide⟩

/-- `xcb-util-image` finds its line. -/
theorem xcbImage_ownLine : xcbImage ∈ xcbListing.rows ∧ OwnLine xcbListing xcbImage :=
  ⟨List.mem_cons_self, (ownLine_iff xcbListing xcbImage List.mem_cons_self).mpr
    ⟨by decide, [], xcbImage, [xcbUtil], rfl, fun _ h => absurd h List.not_mem_nil, rfl, rfl,
      Or.inl (List.cons_ne_nil _ _)⟩⟩

/-- `xcb-util` gets the digest of `xcb-util-image`. -/
theorem xcbUtil_not_ownLine : ¬ OwnLine xcbListing xcbUtil := by
  rintro ⟨-, h⟩
  have hrows : xcbListing.rows = [] ++ xcbImage :: [xcbUtil] := rfl
  have hfound : contains xcbImage.line xcbUtil.package = true := by decide
  rw [md5sum_of_first hrows (by decide) hfound fun _ h => absurd h List.not_mem_nil] at h
  revert h
  decide

end Jhalfs.Book
