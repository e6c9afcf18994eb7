import Mathlib.Data.List.Infix
import Mathlib.Data.List.Dedup
import Jhalfs.Base.ByteOrder
import Jhalfs.Base.Padded

/-!
# Names of the generated scripts

The stylesheets put the place of a page in the linear book at the head of the
name of its script (BLFS/xsl/scripts.xsl:83–111, LFS/lfs.xsl:137–147), and the
Makefile generators walk the directory of scripts and make each target depend on
the one before (BLFS/gen-makefile.sh:112–117, LFS/master.sh:46). So the build
order is the byte-wise order of the names, and it is the order of the pages only
while the numbers fit in the width they are padded to.

- `scriptName` and `chapterName`: the names of the two stylesheets, and `scriptNames` and
  `chapterNames`: the files of a directory in the order they are written.
- `glob`: the words of `dir/*`, the files once each and sorted.
- `generateMakefile`: the loop over them. Its rules are the chain `chained` of the names
  (`generateMakefile_rules`).
- `scriptName_lt` and `scriptName_overflow`: as long as the numbers have three digits the name
  of a later page is larger, and the first name with four digits is smaller than the one before.
  The same for a chapter with two digits.

**Main result**: `builtInBookOrder_iff`. The scripts are built in book order exactly up to 999
pages, and the scripts of a chapter up to 99. A list with names that are in order up to a number
and not at the next one is sorted exactly when it stops there (`sorted_mapIdx_iff`).
-/

namespace Jhalfs.Scripts

open Text

/-! ## The names -/

/-- The variable `order` (scripts.xsl:85–100). -/
def order (position : Nat) : List Char :=
  if (decimal position).length = 1 then
    ['0', '0'] ++ decimal position
  else if (decimal position).length = 2 then
    '0' :: decimal position
  else
    decimal position

/-- `{$order}-z-{$filename}` (scripts.xsl:111), where the file name is the id. -/
def scriptName (position : Nat) (page : List Char) : List Char :=
  order position ++ ("-z-".toList ++ page)

/-- The pages the stylesheet is applied to; `position()` counts only these. Two pages of the
linear book get no script (scripts.xsl:67–68). -/
def scripted (book : List (List Char)) : List (List Char) :=
  book.filter fun page => page != "bootscripts".toList && page != "systemd-units".toList

/-- The files of the scripts directory, in the order they are written. -/
def scriptNames (book : List (List Char)) : List (List Char) :=
  (scripted book).mapIdx fun i page => scriptName (i + 1) page

/-- The variable `order` of a page of a chapter (lfs.xsl:139–145). -/
def chapterOrder (chapNum position : Nat) : List Char :=
  decimal chapNum ++
    ((if (decimal position).length = 1 then ['0'] else []) ++ decimal position)

/-- `{$order}-{$filename}` (lfs.xsl:147), with the file name of the page's
`dbhtml` instruction. -/
def chapterName (chapNum position : Nat) (filename : List Char) : List Char :=
  chapterOrder chapNum position ++ '-' :: filename

/-- The files of a chapter directory, in the order they are written. -/
def chapterNames (chapNum : Nat) (filenames : List (List Char)) : List (List Char) :=
  filenames.mapIdx fun i filename => chapterName chapNum (i + 1) filename

/-! ## The walk over the directory -/

/-- The words of `dir/*`: a file written twice is one file, and the names come
sorted. -/
def glob (dir : List (List Char)) : List (List Char) := sortByName id dir.dedup

theorem nodup_glob (dir : List (List Char)) : (glob dir).Nodup :=
  (perm_sortByName id _).nodup_iff.mpr (List.nodup_dedup dir)

@[simp] theorem mem_glob {dir : List (List Char)} {name : List Char} :
    name ∈ glob dir ↔ name ∈ dir := by
  rw [glob, mem_sortByName, List.mem_dedup]

/-- What `generate_Makefile` has written: the prerequisites of `all`, and a rule
`$i: $PREV` for each script. -/
structure Makefile where
  pkgList : List (List Char)
  rules : List (List Char × List Char)
  prevPackage : List Char

/-- The loop body (gen-makefile.sh:113–116). -/
def writeEntry (mk : Makefile) (thisScript : List Char) : Makefile where
  pkgList := mk.pkgList ++ [thisScript]
  rules := mk.rules ++ [(thisScript, mk.prevPackage)]
  prevPackage := thisScript

/-- `generate_Makefile` on a scripts directory. -/
def generateMakefile (dir : List (List Char)) : Makefile :=
  (glob dir).foldl writeEntry ⟨[], [], []⟩

/-- Each name depends on the one before it, and the first on `prev`. -/
def chained (prev : List Char) : List (List Char) → List (List Char × List Char)
  | [] => []
  | name :: names => (name, prev) :: chained name names

theorem chained_fst (prev : List Char) (names : List (List Char)) :
    (chained prev names).map Prod.fst = names := by
  induction names generalizing prev with
  | nil => rfl
  | cons name names ih => rw [chained, List.map_cons, ih]

theorem foldl_writeEntry_rules (names : List (List Char)) (mk : Makefile) :
    (names.foldl writeEntry mk).rules = mk.rules ++ chained mk.prevPackage names := by
  induction names generalizing mk with
  | nil => rw [List.foldl_nil, chained, List.append_nil]
  | cons name names ih =>
    rw [List.foldl_cons, ih, chained, writeEntry, List.append_assoc]
    rfl

/-- The Makefile chains the scripts in the order of the walk: the rule of each has the one before as
its prerequisite. -/
theorem generateMakefile_rules (dir : List (List Char)) :
    (generateMakefile dir).rules = chained [] (glob dir) :=
  foldl_writeEntry_rules _ _

theorem generateMakefile_rules_iff (dir names : List (List Char)) :
    (generateMakefile dir).rules = chained [] names ↔ glob dir = names := by
  constructor
  · intro h
    rw [generateMakefile_rules] at h
    rw [← chained_fst [] (glob dir), h, chained_fst]
  · rintro rfl
    exact generateMakefile_rules dir

/-- The walk keeps the order of the files exactly when that order is sorted. -/
theorem glob_eq_self_iff {dir : List (List Char)} :
    glob dir = dir ↔ dir.Pairwise (· < ·) := by
  constructor
  · intro h
    have hsorted : (glob dir).Pairwise fun a b => byteLe a b = true := pairwise_sortByName id _
    have hnodup := nodup_glob dir
    rw [h] at hsorted hnodup
    exact hsorted.imp₂ (fun a b hle (hne : a ≠ b) => lt_of_byteLe_of_ne hle hne) hnodup
  · intro h
    have hnodup : dir.Nodup := h.imp fun {a b} hab (he : a = b) =>
      List.lt_irrefl b (he ▸ hab)
    rw [glob, hnodup.dedup]
    exact sortByName_eq_self id (h.imp byteLe_of_lt)

/-! ## The order of the names -/

theorem order_eq_pad (position : Nat) : order position = pad 3 position := by
  have hpos := List.length_pos_iff.mpr (decimal_ne_nil position)
  rw [order, pad]
  split
  · next h => rw [h]; rfl
  · split
    · next h => rw [h]; rfl
    · next h1 h2 =>
      rw [show 3 - (decimal position).length = 0 by omega]
      rfl

theorem chapterOrder_eq_pad (chapNum position : Nat) :
    chapterOrder chapNum position = decimal chapNum ++ pad 2 position := by
  have hpos := List.length_pos_iff.mpr (decimal_ne_nil position)
  rw [chapterOrder, pad]
  split
  · next h => rw [h]; rfl
  · next h => rw [show 2 - (decimal position).length = 0 by omega]; rfl

theorem scriptName_lt {m n : Nat} {p q : List Char} (h : m < n) (hn : n ≤ 999) :
    scriptName m p < scriptName n q := by
  rw [scriptName, scriptName, order_eq_pad, order_eq_pad]
  refine append_lt_append ?_ (pad_lt_pad (by decide) (by omega) h)
  rw [length_pad (by decide) (by omega), length_pad (by decide) (by omega)]

theorem chapterName_lt {c m n : Nat} {p q : List Char} (h : m < n) (hn : n ≤ 99) :
    chapterName c m p < chapterName c n q := by
  rw [chapterName, chapterName, chapterOrder_eq_pad, chapterOrder_eq_pad, List.append_assoc,
    List.append_assoc]
  refine List.append_left_lt (append_lt_append ?_ (pad_lt_pad (by decide) (by omega) h))
  rw [length_pad (by decide) (by omega), length_pad (by decide) (by omega)]

/-- The number that is one digit too wide begins with `1`, and the one before it
with `9`. -/
theorem scriptName_overflow (p q : List Char) : scriptName 1000 p < scriptName 999 q := by
  rw [scriptName, scriptName, show order 1000 = ['1', '0', '0', '0'] by decide,
    show order 999 = ['9', '9', '9'] by decide]
  exact List.cons_lt_cons_iff.mpr (Or.inl (show '1' < '9' by decide))

theorem chapterName_overflow (c : Nat) (p q : List Char) :
    chapterName c 100 p < chapterName c 99 q := by
  rw [chapterName, chapterName, chapterOrder_eq_pad, chapterOrder_eq_pad, List.append_assoc,
    List.append_assoc, show pad 2 100 = ['1', '0', '0'] by decide,
    show pad 2 99 = ['9', '9'] by decide]
  exact List.append_left_lt (List.cons_lt_cons_iff.mpr (Or.inl (show '1' < '9' by decide)))

section Numbered

variable {α : Type} (name : Nat → α → List Char) (width : Nat)

/-- Names that are in order up to a number and not at the next one are sorted
exactly when no more than that number are given. -/
theorem sorted_mapIdx_iff (hpos : 0 < width)
    (hlt : ∀ m n p q, m < n → n ≤ width → name m p < name n q)
    (hover : ∀ p q, name (width + 1) p < name width q) (pages : List α) :
    (pages.mapIdx fun i page => name (i + 1) page).Pairwise (· < ·) ↔ pages.length ≤ width := by
  rw [List.pairwise_iff_getElem]
  constructor
  · intro h
    by_contra hlen
    rw [not_le] at hlen
    -- the page at the width and the next one are in the wrong order
    have hbad := h (width - 1) width (by rw [List.length_mapIdx]; omega)
      (by rw [List.length_mapIdx]; exact hlen) (by omega)
    rw [List.getElem_mapIdx, List.getElem_mapIdx, Nat.sub_add_cancel hpos] at hbad
    exact List.lt_irrefl _ (List.lt_trans hbad (hover _ _))
  · intro hlen i j hi hj hij
    rw [List.length_mapIdx] at hi hj
    rw [List.getElem_mapIdx, List.getElem_mapIdx]
    exact hlt _ _ _ _ (by omega) (by omega)

end Numbered

theorem scriptNames_sorted_iff (book : List (List Char)) :
    (scriptNames book).Pairwise (· < ·) ↔ (scripted book).length ≤ 999 :=
  sorted_mapIdx_iff scriptName 999 (by decide) (fun _ _ _ _ => scriptName_lt)
    scriptName_overflow _

/-- The walk over the directory finds the scripts in the order of the pages. -/
theorem glob_scriptNames {book : List (List Char)} (h : (scripted book).length ≤ 999) :
    glob (scriptNames book) = scriptNames book :=
  glob_eq_self_iff.mpr ((scriptNames_sorted_iff book).mpr h)

theorem chapterNames_sorted_iff (chapNum : Nat) (filenames : List (List Char)) :
    (chapterNames chapNum filenames).Pairwise (· < ·) ↔ filenames.length ≤ 99 :=
  sorted_mapIdx_iff (chapterName chapNum) 99 (by decide) (fun _ _ _ _ => chapterName_lt)
    (chapterName_overflow chapNum) _

/-- **The scripts are built in book order up to 999 pages**, and the scripts of
a chapter up to 99. -/
theorem builtInBookOrder_iff (book : List (List Char)) (chapNum : Nat)
    (filenames : List (List Char)) :
    ((generateMakefile (scriptNames book)).rules = chained [] (scriptNames book) ↔
      (scripted book).length ≤ 999) ∧
    (glob (chapterNames chapNum filenames) = chapterNames chapNum filenames ↔
      filenames.length ≤ 99) := by
  constructor
  · rw [generateMakefile_rules_iff, glob_eq_self_iff, scriptNames_sorted_iff]
  · rw [glob_eq_self_iff, chapterNames_sorted_iff]

/-- The book of the pages `p0`, `p1`, and so on. -/
def numberedBook (n : Nat) : List (List Char) := (List.range n).map fun k => 'p' :: decimal k

theorem scripted_numberedBook (n : Nat) : scripted (numberedBook n) = numberedBook n := by
  refine List.filter_eq_self.mpr fun page hpage => ?_
  obtain ⟨k, -, rfl⟩ := List.mem_map.mp hpage
  have hne : ∀ {c : Char} {id : List Char}, c ≠ 'p' → 'p' :: decimal k ≠ c :: id :=
    fun hc heq => hc (List.cons.inj heq).1.symm
  rw [Bool.and_eq_true, bne_iff_ne, bne_iff_ne]
  exact ⟨hne (by decide), hne (by decide)⟩

/-- A book of a thousand pages and a chapter of a hundred pages. -/
theorem thousandPages_not_builtInBookOrder :
    (generateMakefile (scriptNames (numberedBook 1000))).rules ≠
      chained [] (scriptNames (numberedBook 1000)) ∧
    glob (chapterNames 8 (numberedBook 100)) ≠ chapterNames 8 (numberedBook 100) := by
  constructor
  · rw [ne_eq, generateMakefile_rules_iff, glob_eq_self_iff, scriptNames_sorted_iff,
      scripted_numberedBook, numberedBook, List.length_map, List.length_range]
    decide
  · rw [ne_eq, glob_eq_self_iff, chapterNames_sorted_iff, numberedBook, List.length_map,
      List.length_range]
    decide

end Jhalfs.Scripts
