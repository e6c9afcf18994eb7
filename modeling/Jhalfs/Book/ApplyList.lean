import Jhalfs.Base.Words

/-!
# The pages of the linear book

`apply-list` (BLFS/xsl/make_book.xsl:67–123) makes the pages of the linear book from the
list of packages. It splits the list at its first blank and calls itself on both sides; a
name that has `groupxx` in it makes no page.

The names are of several kinds: packages of the LFS book, copies for the first of two
passes, modules of an xorg page, and ids of the BLFS book, which may be sections, Perl
modules or paragraphs. What the two books say of a name is the structure `Books`.

- `detectLfs` and `processLfs`: a name of the LFS book has the page of LFS, unless it is one
  of the few that are taken from BLFS (`fromBlfs`).
- `isPass1` and `realId`: the copy for the first pass has the page of its package, under the
  name of the copy.
- `xorgSections`: a module is looked up in the texts of the xorg pages, and gets a page from
  each in which it stands. So a name can have no page, one or several.
- `Books.page`: the ids of the pages of one name, from these cases.
- `applyList`: the template, on the text of the list. It recurses on what is before and after
  the first blank, both of which are shorter than the list.

**Main result**: `applyList_output`. For the list that `tree_browse` prints the template makes
the pages of one name after the other, and none for the groups. What is between the two, the
command substitution and `normalize-space`, leaves the words of the list as they are.
-/

namespace Jhalfs.Book

open Text

/-! ## The two books -/

/-- What `id(...)` finds in the BLFS book. A `bridgehead` makes a page only below the
section of the Perl modules. -/
inductive Node where
  | sect1
  | sect2
  | para
  | bridgehead (perlModule : Bool)
  | other
  deriving DecidableEq

/-- The chapter of a section of the LFS book. -/
inductive LfsChapter where
  | buildingSystem
  | config
  | bootable
  | other
  deriving DecidableEq

/-- A `sect1` of the LFS book: the `productname`s of its `sect1info`. -/
structure LfsSection where
  productnames : List (List Char)
  chapter : LfsChapter

/-- A `sect1` of the BLFS book and the text of its first `userinput`. -/
structure XorgSection where
  id : List Char
  userinput : List Char

/-- A page of the linear book, by the template that makes it: a section of the LFS book
(mode `lfs`), the release file at the end of LFS, the copy of a section for the first of two
passes (modes `pass1` and `pass1-sect2`), a section, paragraph or module of the BLFS book,
and a package that is cut out of an xorg page (mode `xorg`). -/
inductive LinearPage where
  | lfs (s : LfsSection)
  | release
  | pass1 (realId : List Char)
  | blfs (id : List Char)
  | xorg (package : List Char)

/-- The id of a `sect1` in mode `lfs` (lfs_make_book.xsl:71–81). -/
def lfsId (s : LfsSection) : List Char :=
  if s.productnames.contains "bootscripts".toList then "lfs-bootscripts".toList
  else s.productnames.headD []

/-- The id that the page gets (lfs_make_book.xsl:51,71–81, make_book.xsl:176,202,530). -/
def LinearPage.id : LinearPage → List Char
  | .lfs s => lfsId s
  | .release => "LFS-Release".toList
  | .pass1 realId => realId ++ "-pass1".toList
  | .blfs id => id
  | .xorg package => package

/-- What the two books say of a name: what has it as its id in the BLFS book, the sections of that
book, in which the modules are looked up, and the sections of the LFS book. -/
structure Books where
  id : List Char → Option Node
  sect1s : List XorgSection
  lfs : List LfsSection

namespace Books

variable (b : Books)

/-- The packages whose page is taken from the BLFS book though LFS has one. -/
def fromBlfs : List (List Char) :=
  ["gcc".toList, "dbus".toList, "vim".toList, "systemd".toList, "Python".toList, "shadow".toList]

/-- `key('idlfs', $package)` in one chapter. -/
def keyIdlfs (package : List Char) (chapter : LfsChapter) : List LfsSection :=
  b.lfs.filter fun s => s.productnames.contains package && s.chapter == chapter

/-- `detect-lfs` writes `true` (lfs_make_book.xsl:10–29). -/
def detectLfs (package : List Char) : Bool :=
  if fromBlfs.contains package then false
  else if package = "bootscripts".toList then true
  else if package = "kernel".toList then true
  else if package = "LFS-Release".toList then true
  else !(b.keyIdlfs package .buildingSystem).isEmpty

/-- The pages that `process-lfs` makes (lfs_make_book.xsl:31–61). -/
def processLfs (package : List Char) : List LinearPage :=
  if fromBlfs.contains package then []
  else if package = "bootscripts".toList then (b.keyIdlfs package .config).map .lfs
  else if package = "kernel".toList then (b.keyIdlfs package .bootable).map .lfs
  else if package = "LFS-Release".toList then [.release]
  else (b.keyIdlfs package .buildingSystem).map .lfs

/-- `concat($list,' ')` has `-pass1 ` in it: the name is that of a copy. -/
def isPass1 (name : List Char) : Bool := contains (name ++ [' ']) "-pass1 ".toList

/-- `$real-id` (make_book.xsl:98–100). -/
def realId (name : List Char) : List Char := substringBefore (name ++ [' ']) "-pass1 ".toList

/-- The modules are looked up in the texts of the xorg pages (make_book.xsl:109–115). -/
def xorgSections (name : List Char) : List XorgSection :=
  b.sect1s.filter fun s => contains s.id "xorg7".toList && contains s.userinput (name ++ ['-'])

/-- The pages of one name (make_book.xsl:80–121). It is looked for in the LFS book, among the copies
for the first pass, in the BLFS book and in the xorg pages, in this order. -/
def made (name : List Char) : List LinearPage :=
  if b.detectLfs name then b.processLfs name
  else if isPass1 name then
    match b.id (realId name) with
    | some .sect1 | some .sect2 => [.pass1 (realId name)]
    | _ => []
  else
    match b.id name with
    | some .sect1 | some .sect2 | some .para => [.blfs name]
    | some (.bridgehead perlModule) => if perlModule then [.blfs name] else []
    | _ => (b.xorgSections name).map fun _ => .xorg name

/-- The ids of the pages of one name. -/
def page (name : List Char) : List (List Char) := (b.made name).map LinearPage.id

/-- `apply-list`: the ids of the pages in the order they are made. -/
def applyList (list : List Char) : List (List Char) :=
  if 0 < list.length then
    if contains list [' '] then
      applyList (substringBefore list [' ']) ++ applyList (substringAfter list [' '])
    else if contains list "groupxx".toList then []
    else b.page list
  else []
termination_by list.length
decreasing_by
  · exact length_substringBefore_lt (List.length_pos_iff.mp ‹_›) (by decide)
  · exact length_substringAfter_lt (List.length_pos_iff.mp ‹_›) (by decide)

/-! ## One name after the other -/

/-- The pages of a name of the list. -/
def pagesOf (name : List Char) : List (List Char) :=
  if contains name "groupxx".toList then [] else b.page name

theorem applyList_word {w : List Char} (h : IsWord w) : b.applyList w = b.pagesOf w := by
  rw [applyList, if_pos (List.length_pos_iff.mpr h.1), if_neg h.not_contains_blank, pagesOf]

theorem applyList_joined : ∀ {ws : List (List Char)}, (∀ w ∈ ws, IsWord w) →
    b.applyList (joined ' ' ws) = ws.flatMap b.pagesOf
  | [], _ => by
    rw [joined_nil, applyList]
    rfl
  | [w], h => by
    rw [joined_singleton, b.applyList_word (h w List.mem_cons_self)]
    simp
  | w :: v :: ws, h => by
    have hw := h w List.mem_cons_self
    have ih := applyList_joined fun u hu => h u (List.mem_cons_of_mem _ hu)
    have hne : 0 < (joined ' ' (w :: v :: ws)).length :=
      List.length_pos_iff.mpr (joined_ne_nil hw)
    rw [applyList, if_pos hne, if_pos (contains_joined w v ws), substringBefore_joined hw,
      substringAfter_joined hw, b.applyList_word hw, ih]
    rfl

/-- **The pages are made in the order of the list**, each name once and no group: what
`tree_browse` prints goes through the command substitution, `normalize-space` and
`apply-list`. -/
theorem applyList_output {ws : List (List Char)} (h : ∀ w ∈ ws, IsWord w) :
    b.applyList (normalizeSpace (substitution (printed ws))) =
      (ws.filter fun w => !contains w "groupxx".toList).flatMap b.page := by
  rw [normalizeSpace_output h, b.applyList_joined h]
  clear h
  induction ws with
  | nil => rfl
  | cons w ws ih =>
    rw [List.flatMap_cons, ih, pagesOf, List.filter_cons]
    by_cases hgroup : contains w "groupxx".toList = true
    · rw [if_pos hgroup, hgroup]
      rfl
    · rw [if_neg hgroup, Bool.not_eq_true] at *
      rw [hgroup]
      rfl

/-- A library of LFS has no page of its own here, a group has none at all, and the copy for the
first pass has the page of its package. -/
theorem applyList_pass1 :
    let b : Books := ⟨fun w => if w = "mesa".toList then some .sect1 else none, [],
      [⟨["zlib".toList], .buildingSystem⟩]⟩
    b.applyList (normalizeSpace (substitution (printed ["zlib".toList, "mesa-pass1".toList,
      "fontsgroupxx".toList, "mesa".toList]))) =
        ["zlib".toList, "mesa-pass1".toList, "mesa".toList] := by
  intro b
  rw [b.applyList_output (by simp [IsWord, isSpace])]
  decide

end Books

end Jhalfs.Book
