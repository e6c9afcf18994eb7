import Jhalfs.Base.ByteOrder
import Jhalfs.Lfs.Makefile

/-!
# The copies of the scripts

For each rebuild of the final system `chapter_targets` copies the directory of its chapter,
edits the copies with `sed` and gives them the suffix `-build_N` (LFS/master.sh:24–42). The
loop goes over the names as they were before it. So a script that is called like another
one with the suffix is lost: `mv` puts the other one in its place, and then the loop comes to
that name and moves it a second time.

- `moveScript`: one round of the loop, `moveScripts`: the loop over the names in the order of
  the shell, and `copyChapter`: the loop with the two `sed` behind it.
- `Origin`: the script from which the text of a copy comes, along a chain of such moves.
- `Moving`: the invariant of the loop, with the names that it has done and those that are left.
  A round keeps it (`Moving.step`), since the names are sorted and a name comes before itself
  with the suffix.

The edits change what a script does when its files are there already. They do not change
whether the script unpacks a tarball, which decides later whether it gets a target: `sed` puts
letters behind a `v` or a line before an `m`, and the text `tar -xf ` has neither
(`unpacks_insertAfter`, `unpacks_insertBefore`).

**Main results**: `copies_spec` says what the names of the copies are and from which script
each has its text. `jhalfs` runs with `set -e`, so it ends when a pattern of file names in the
arguments of `sed` matches no file; `copyChapter_isSome` says when it does not.
-/

namespace Jhalfs.Lfs

open Text

/-- A script as a file: its name, and its lines. What is asked of a text is whether one of its lines
unpacks a tarball. -/
structure ScriptFile where
  name : List Char
  text : List (List Char)

/-- The directory of a chapter: its files, no two of which have the same name. -/
structure Chapter where
  files : List ScriptFile
  distinct : (files.map ScriptFile.name).Nodup

/-! ## What a script unpacks -/

/-- What precedes the name of a tarball. -/
def untar : List Char := "tar -xf ".toList

/-- `sed -n 's/tar -xf \(.*\)/\1/p'` on one line. -/
def printTarball (line : List Char) : Option (List Char) :=
  (cut untar line).map fun p => p.1 ++ p.2

/-- `$(sed …)`: the lines that are printed, without the line ends after them
(master.sh:91). -/
def pkgTarball (text : List (List Char)) : List Char :=
  ((text.filterMap printTarball).flatMap (· ++ ['\n'])).rdropWhile (· == '\n')

/-- A script as the rules of the Makefile need it. -/
def ScriptFile.script (file : ScriptFile) : Script := ⟨file.name, pkgTarball file.text⟩

/-- The line names something to unpack, that is, `sed` prints it with a text behind `tar -xf `. -/
def unpacks (line : List Char) : Bool :=
  match printTarball line with
  | some tarball => tarball.any (· != '\n')
  | none => false

theorem pkgTarball_isEmpty (text : List (List Char)) :
    (pkgTarball text).isEmpty = !text.any unpacks := by
  rw [Bool.eq_iff_iff, List.isEmpty_iff, pkgTarball, List.rdropWhile_eq_nil_iff,
    Bool.not_eq_true', List.any_eq_false]
  constructor
  · intro h line hline hunpacks
    unfold unpacks at hunpacks
    cases htar : printTarball line with
    | none =>
      rw [htar] at hunpacks
      cases hunpacks
    | some tarball =>
      rw [htar] at hunpacks
      obtain ⟨c, hc, hne⟩ := List.any_eq_true.mp hunpacks
      have hmem : c ∈ (text.filterMap printTarball).flatMap (· ++ ['\n']) :=
        List.mem_flatMap.mpr
          ⟨tarball, List.mem_filterMap.mpr ⟨line, hline, htar⟩, List.mem_append_left _ hc⟩
      rw [bne, h c hmem] at hne
      cases hne
  · intro h c hc
    obtain ⟨tarball, htarball, hmem⟩ := List.mem_flatMap.mp hc
    rcases List.mem_append.mp hmem with hin | hend
    · obtain ⟨line, hline, htar⟩ := List.mem_filterMap.mp htarball
      by_contra hne
      refine h line hline ?_
      unfold unpacks
      rw [htar]
      refine List.any_eq_true.mpr ⟨c, hin, ?_⟩
      rw [bne, Bool.not_eq_true', ← Bool.not_eq_true]
      exact hne
    · rw [List.mem_singleton.mp hend]
      rfl

/-- A line with a character that `tar -xf ` does not have unpacks something as soon as it
has `tar -xf `. -/
theorem unpacks_of_mem {line : List Char} {c : Char} (hc : c ∈ line) (hnot : c ∉ untar)
    (hnewline : c ≠ '\n') : unpacks line = contains line untar := by
  unfold unpacks printTarball contains
  cases hcut : cut untar line with
  | none => rfl
  | some p =>
    rw [eq_of_cut hcut, List.mem_append, List.mem_append] at hc
    have hrest : c ∈ p.1 ++ p.2 := by
      rcases hc with (hc | hc) | hc
      · exact List.mem_append_left _ hc
      · exact absurd hc hnot
      · exact List.mem_append_right _ hc
    exact List.any_eq_true.mpr ⟨c, hrest, bne_iff_ne.mpr hnewline⟩

/-! ## Letters behind a match -/

/-- The length of a match of `w *v` at the beginning of the text. -/
def matchLength (w v : String) (s : List Char) : Option Nat :=
  if w.toList.isPrefixOf s then
    let rest := s.drop w.toList.length
    let blanks := rest.takeWhile (· == ' ')
    if v.toList.isPrefixOf (rest.drop blanks.length) then
      some (w.toList.length + blanks.length + v.toList.length)
    else none
  else none

/-- `s/…/&c/g`, where `find` gives the length of a match. Of the current match there are
`left` characters still to come. -/
def insertAfter (find : List Char → Option Nat) (c : Char) (left : Nat) : List Char → List Char
  | [] => []
  | d :: s =>
    match if left = 0 then (find (d :: s)).getD 0 else left with
    | 0 => d :: insertAfter find c 0 s
    | 1 => d :: c :: insertAfter find c 0 s
    | n + 2 => d :: insertAfter find c (n + 1) s

/-- Some letters `c` were put behind letters `a`. A word without an `a` occurs in the new text
where it did in the old one. -/
inductive Inserted (a c : Char) : List Char → List Char → Prop where
  | nil : Inserted a c [] []
  | keep (d : Char) {s t : List Char} : Inserted a c s t → Inserted a c (d :: s) (d :: t)
  | add {s t : List Char} : Inserted a c s t → Inserted a c (a :: s) (a :: c :: t)

/-- A match that `find` gives ends with `a`. -/
theorem inserted_insertAfter {find : List Char → Option Nat} {a : Char}
    (hfind : ∀ s n, find s = some (n + 1) → s[n]? = some a) (c : Char) (s : List Char) :
    ∀ left, (∀ n, left = n + 1 → s[n]? = some a) → Inserted a c s (insertAfter find c left s) := by
  induction s with
  | nil => exact fun _ _ => .nil
  | cons d s ih =>
    intro left hleft
    have hcount : ∀ n, (if left = 0 then (find (d :: s)).getD 0 else left) = n + 1 →
        (d :: s)[n]? = some a := by
      intro n hn
      split at hn
      · cases hf : find (d :: s) with
        | none => simp [hf] at hn
        | some m =>
          rw [hf, Option.getD_some] at hn
          exact hfind _ n (hn ▸ hf)
      · exact hleft n hn
    rw [insertAfter]
    generalize (if left = 0 then (find (d :: s)).getD 0 else left) = count at hcount
    match count, hcount with
    | 0, _ => exact .keep d (ih 0 fun n hn => absurd hn (Nat.succ_ne_zero n).symm)
    | 1, hcount =>
      have hd : d = a := by simpa using hcount 0 rfl
      rw [hd]
      exact .add (ih 0 fun n hn => absurd hn (Nat.succ_ne_zero n).symm)
    | n + 2, hcount =>
      refine .keep d (ih (n + 1) fun m hm => ?_)
      have hnext := hcount (n + 1) rfl
      rw [List.getElem?_cons_succ] at hnext
      exact Nat.succ.inj hm ▸ hnext

theorem matchLength_end {w v : String} {a : Char} (hv : v.toList.getLast? = some a)
    (s : List Char) (n : Nat) (h : matchLength w v s = some (n + 1)) : s[n]? = some a := by
  unfold matchLength at h
  split at h
  · next hw =>
    dsimp only at h
    split at h
    · next hpre =>
      obtain ⟨rest, rfl⟩ := List.isPrefixOf_iff_prefix.mp hw
      rw [List.drop_left] at h hpre
      obtain ⟨tail, htail⟩ := List.isPrefixOf_iff_prefix.mp hpre
      have hpos : 0 < v.toList.length := by
        rw [List.length_pos_iff]
        rintro hnil
        rw [hnil] at hv
        cases hv
      have hn := Option.some.inj h
      have hrest : rest = rest.takeWhile (· == ' ') ++ (v.toList ++ tail) := by
        rw [htail]
        exact (List.prefix_iff_eq_append.mp (List.takeWhile_prefix _)).symm
      -- only the length of the blanks matters from here on
      generalize rest.takeWhile (· == ' ') = blanks at hn hrest
      rw [hrest, ← List.append_assoc, List.getElem?_append_right (by simp; omega),
        List.getElem?_append_left (by simp; omega)]
      rw [List.getLast?_eq_getElem?] at hv
      rw [← hv]
      congr 1
      simp
      omega
    · cases h
  · cases h

/-- Letters behind a letter that a word does not have do not make or break the word. -/
theorem isPrefix_iff_of_inserted {a c : Char} {s t p : List Char} (h : Inserted a c s t)
    (ha : a ∉ p) : p <+: s ↔ p <+: t := by
  induction h generalizing p with
  | nil => exact Iff.rfl
  | keep d _ ih =>
    cases p with
    | nil => exact iff_of_true List.nil_prefix List.nil_prefix
    | cons e p =>
      rw [List.cons_prefix_cons, List.cons_prefix_cons,
        ih fun hmem => ha (List.mem_cons_of_mem _ hmem)]
  | add _ _ =>
    cases p with
    | nil => exact iff_of_true List.nil_prefix List.nil_prefix
    | cons e p =>
      have hne : e ≠ a := fun heq => ha (heq ▸ List.mem_cons_self)
      rw [List.cons_prefix_cons, List.cons_prefix_cons]
      exact iff_of_false (fun hp => hne hp.1) fun hp => hne hp.1

theorem contains_of_inserted {a c d : Char} {s t p : List Char} (h : Inserted a c s t)
    (ha : a ∉ d :: p) (hc : d ≠ c) : contains t (d :: p) = contains s (d :: p) := by
  rw [Bool.eq_iff_iff, contains_iff, contains_iff]
  induction h with
  | nil => exact Iff.rfl
  | keep e hst ih =>
    rw [List.infix_cons_iff, List.infix_cons_iff, ih, isPrefix_iff_of_inserted (.keep e hst) ha]
  | add hst ih =>
    have hnot : ∀ r, ¬ d :: p <+: c :: r := fun r hp => hc (List.cons_prefix_cons.mp hp).1
    rw [List.infix_cons_iff, List.infix_cons_iff, List.infix_cons_iff, ih,
      isPrefix_iff_of_inserted (.add hst) ha]
    exact or_congr_right (or_iff_right (hnot _))

theorem eq_or_mem_of_inserted {a c : Char} {s t : List Char} (h : Inserted a c s t) :
    t = s ∨ (a ∈ s ∧ a ∈ t) := by
  induction h with
  | nil => exact Or.inl rfl
  | keep d _ ih =>
    rcases ih with heq | ⟨hs, ht⟩
    · exact Or.inl (by rw [heq])
    · exact Or.inr ⟨List.mem_cons_of_mem _ hs, List.mem_cons_of_mem _ ht⟩
  | add _ _ => exact Or.inr ⟨List.mem_cons_self, List.mem_cons_self⟩

theorem unpacks_of_inserted {c : Char} {s t : List Char} (h : Inserted 'v' c s t) (hc : 't' ≠ c) :
    unpacks t = unpacks s := by
  rcases eq_or_mem_of_inserted h with rfl | ⟨hs, ht⟩
  · rfl
  · have hv : 'v' ∉ untar := by decide
    rw [unpacks_of_mem hs hv (by decide), unpacks_of_mem ht hv (by decide)]
    exact contains_of_inserted h hv hc

theorem unpacks_insertAfter {w v : String} {c : Char} (hv : v.toList.getLast? = some 'v')
    (hc : 't' ≠ c) (line : List Char) :
    unpacks (insertAfter (matchLength w v) c 0 line) = unpacks line := by
  have hinserted := inserted_insertAfter (matchLength_end (w := w) hv) c line 0
    fun n hn => absurd hn (Nat.succ_ne_zero n).symm
  exact unpacks_of_inserted hinserted hc

/-! ## Lines before a match -/

/-- `s@w@new\n&@`. -/
def insertBefore (new w line : List Char) : List (List Char) :=
  match cut w line with
  | some p => [p.1 ++ new, w ++ p.2]
  | none => [line]

/-- A new line that neither begins with the end of `tar -xf ` nor has it. -/
theorem unpacks_insertBefore {a b c : Char} {new w : List Char} (ha : a ≠ ' ') (hb : b ∉ untar)
    (hbn : b ≠ '\n') (hnew : contains new untar = false) (hc : c ∉ untar) (hcn : c ≠ '\n')
    (line : List Char) :
    (insertBefore (a :: b :: new) (c :: w) line).any unpacks = unpacks line := by
  unfold insertBefore
  cases hcut : cut (c :: w) line with
  | none => simp
  | some p =>
    have hline : line = p.1 ++ c :: (w ++ p.2) := by
      rw [eq_of_cut hcut]
      simp
    have huntar : untar ≠ [] := by decide
    -- no `untar` ends at `a`, which is no blank, and none has `b` in it
    have hbefore : contains (p.1 ++ a :: b :: new) untar = contains p.1 untar := by
      have hlast : ¬ untar <:+ p.1 ++ [a] := by
        intro h
        have hend := h.getLast (by decide)
        rw [List.getLast_concat] at hend
        exact ha (hend.symm.trans (by decide))
      have hword : contains (p.1 ++ [a]) untar = contains p.1 untar := by
        rw [Bool.eq_iff_iff, contains_iff, contains_iff, List.infix_concat_iff]
        exact or_iff_right hlast
      have hsplit := contains_append_cons (s := p.1 ++ [a]) (t := new) huntar hb
      rw [List.append_assoc, List.singleton_append, hnew, Bool.or_false] at hsplit
      rw [hsplit, hword]
    have hafter : contains (c :: (w ++ p.2)) untar = contains (w ++ p.2) untar := by
      have hsplit := contains_append_cons (s := []) (t := w ++ p.2) huntar hc
      have hnil : contains [] untar = false := by decide
      rwa [List.nil_append, hnil, Bool.false_or] at hsplit
    have hbmem : b ∈ p.1 ++ a :: b :: new := by simp
    have hcmem : c ∈ p.1 ++ c :: (w ++ p.2) := by simp
    rw [hline, unpacks_of_mem hcmem hc hcn, contains_append_cons huntar hc]
    dsimp only
    rw [List.any_cons, List.any_cons, List.any_nil, Bool.or_false, List.cons_append,
      unpacks_of_mem hbmem hb hbn, unpacks_of_mem List.mem_cons_self hc hcn, hbefore, hafter]

/-! ## Copying -/

/-- The first `sed` (master.sh:29–31). -/
def overwrite (line : List Char) : List Char :=
  insertAfter (matchLength "mkdir" "-v") 'p' 0
    (insertAfter (matchLength "mv" "-v") 'f' 0
      (insertAfter (matchLength "ln" "-sv") 'f' 0 line))

/-- The pattern `*w$N`. -/
def copyOf (w : String) (run : Nat) (file : ScriptFile) : Bool :=
  (w.toList ++ buildSuffix run).isSuffixOf file.name

/-- The script under its new name. -/
def ScriptFile.overwritten (run : Nat) (file : ScriptFile) : ScriptFile :=
  ⟨file.name ++ buildSuffix run, file.text.map overwrite⟩

/-- One round of the loop: `mv` puts the script in the place of a file that has its new name
(master.sh:27–34). -/
def moveScript (run : Nat) (dir : List ScriptFile) (name : List Char) : List ScriptFile :=
  (dir.filter fun file => file.name != name ++ buildSuffix run).map fun file =>
    if file.name = name then file.overwritten run else file

/-- The loop, over the names that `${dir}$N/*` has before it. A name that a script was moved to
is not gone through again, unless it was there before. -/
def moveScripts (run : Nat) (files : List ScriptFile) : List ScriptFile :=
  (sortByName id (files.map ScriptFile.name)).foldl (moveScript run) files

/-- `make install` of bzip2 (master.sh:36) and the `mv` of openssl (master.sh:39–40). -/
def ScriptFile.cleaned (run : Nat) (file : ScriptFile) : ScriptFile :=
  let text := if copyOf "-bzip2" run file = true then
      file.text.flatMap (insertBefore "rm -vf /usr/bin/bz*".toList "make install".toList)
    else file.text
  let text := if copyOf "-openssl" run file = true then
      text.flatMap (insertBefore "rm -rfv /usr/share/doc/openssl-*".toList "mv -v".toList)
    else text
  ⟨file.name, text⟩

/-- The copies of a directory (master.sh:24–41); `none` when a `sed` finds no file. -/
def copyChapter (run : Nat) (files : List ScriptFile) : Option (List ScriptFile) :=
  let dir := moveScripts run files
  if dir.any (copyOf "-bzip2" run) && dir.any (copyOf "-openssl" run) then
    some (dir.map (ScriptFile.cleaned run))
  else none

/-! ## The edits -/

theorem unpacks_overwrite (line : List Char) : unpacks (overwrite line) = unpacks line := by
  rw [overwrite, unpacks_insertAfter (by decide) (by decide),
    unpacks_insertAfter (by decide) (by decide), unpacks_insertAfter (by decide) (by decide)]

theorem any_unpacks_overwritten (run : Nat) (file : ScriptFile) :
    (file.overwritten run).text.any unpacks = file.text.any unpacks := by
  show (file.text.map overwrite).any unpacks = file.text.any unpacks
  rw [List.any_map]
  congr 1
  exact funext unpacks_overwrite

theorem any_unpacks_flatMap {edit : List Char → List (List Char)}
    (h : ∀ line, (edit line).any unpacks = unpacks line) (text : List (List Char)) :
    (text.flatMap edit).any unpacks = text.any unpacks := by
  induction text with
  | nil => rfl
  | cons line text ih => rw [List.flatMap_cons, List.any_append, List.any_cons, h, ih]

theorem any_unpacks_cleaned (run : Nat) (file : ScriptFile) :
    (file.cleaned run).text.any unpacks = file.text.any unpacks := by
  have hbzip2 : ∀ text : List (List Char),
      (text.flatMap (insertBefore "rm -vf /usr/bin/bz*".toList "make install".toList)).any unpacks =
        text.any unpacks :=
    any_unpacks_flatMap (unpacks_insertBefore (by decide) (by decide) (by decide) (by decide)
      (by decide) (by decide))
  have hopenssl : ∀ text : List (List Char),
      (text.flatMap (insertBefore "rm -rfv /usr/share/doc/openssl-*".toList
        "mv -v".toList)).any unpacks = text.any unpacks :=
    any_unpacks_flatMap (unpacks_insertBefore (by decide) (by decide) (by decide) (by decide)
      (by decide) (by decide))
  unfold ScriptFile.cleaned
  dsimp only
  split
  · rw [hopenssl]
    split
    · rw [hbzip2]
    · rfl
  · split
    · rw [hbzip2]
    · rfl

theorem buildSuffix_ne_nil (run : Nat) : buildSuffix run ≠ [] := by
  intro h
  cases h

/-- The pattern finds the copies of the scripts that end with the word. -/
theorem copyOf_iff {w : String} {run : Nat} {file : ScriptFile} {name : List Char}
    (h : file.name = name ++ buildSuffix run) :
    copyOf w run file = true ↔ endsWith w name = true := by
  rw [copyOf, endsWith, h, List.isSuffixOf_iff_suffix, List.isSuffixOf_iff_suffix]
  exact List.suffix_append_self_iff

/-! ## Where a copy comes from -/

section Moves

variable {run : Nat} {files : List ScriptFile}

/-- `Origin run files name start`: when the loop comes to `name`, the file of this name has the
text of the script `start`. It is the script itself, if no script is moved to its name. -/
inductive Origin (run : Nat) (files : List ScriptFile) : List Char → ScriptFile → Prop where
  | own {file : ScriptFile} (hfile : file ∈ files)
      (hfree : ∀ other ∈ files, other.name ++ buildSuffix run ≠ file.name) :
      Origin run files file.name file
  | moved {name : List Char} {start : ScriptFile} (h : Origin run files name start)
      (hname : name ++ buildSuffix run ∈ files.map ScriptFile.name) :
      Origin run files (name ++ buildSuffix run) start

theorem Origin.mem {name : List Char} {start : ScriptFile} (h : Origin run files name start) :
    name ∈ files.map ScriptFile.name := by
  cases h with
  | own hfile _ => exact List.mem_map_of_mem hfile
  | moved _ hname => exact hname

theorem Origin.unique (hdistinct : (files.map ScriptFile.name).Nodup) {name : List Char}
    {a b : ScriptFile} (ha : Origin run files name a) (hb : Origin run files name b) : a = b := by
  induction ha with
  | @own file hfile hfree =>
    generalize hname : file.name = name at hb
    cases hb with
    | own hfile' _ => exact List.inj_on_of_nodup_map hdistinct hfile hfile' hname
    | moved h _ =>
      obtain ⟨other, hother, hothername⟩ := List.mem_map.mp h.mem
      exact absurd (hothername ▸ hname.symm) (hfree other hother)
  | @moved name start h hname ih =>
    generalize heq : name ++ buildSuffix run = long at hb
    cases hb with
    | own hfile' hfree' =>
      obtain ⟨other, hother, hothername⟩ := List.mem_map.mp h.mem
      exact absurd (hothername ▸ heq) (hfree' other hother)
    | moved h' _ => exact ih (List.append_cancel_right heq ▸ h')

/-- A script with no other one moved to its name. -/
theorem Origin.eq_self (hdistinct : (files.map ScriptFile.name).Nodup) {file start : ScriptFile}
    (hfile : file ∈ files) (hfree : ∀ other ∈ files, other.name ++ buildSuffix run ≠ file.name)
    (h : Origin run files file.name start) : start = file :=
  Origin.unique hdistinct h (.own hfile hfree)

/-- The loop has come through the names `done`, and `rest` is to come. A file of the directory
is untouched, or was moved to its name and has the text of its origin, as far as unpacking is
concerned. -/
structure Moving (run : Nat) (files : List ScriptFile) (done rest : List (List Char))
    (dir : List ScriptFile) : Prop where
  distinct : (dir.map ScriptFile.name).Nodup
  names : ∀ name, name ∈ dir.map ScriptFile.name ↔
    name ∈ rest ∨ ∃ n ∈ done, name = n ++ buildSuffix run ∧ name ∉ done
  text : ∀ file ∈ dir,
    (file ∈ files ∧ file.name ∈ rest ∧ ∀ n ∈ done, n ++ buildSuffix run ≠ file.name) ∨
      ∃ n ∈ done, file.name = n ++ buildSuffix run ∧
        ∃ start, Origin run files n start ∧ file.text.any unpacks = start.text.any unpacks

/-- A name comes before itself with the suffix. -/
theorem not_byteLe_buildSuffix (name : List Char) (run : Nat) :
    ¬ byteLe (name ++ buildSuffix run) name = true := by
  intro h
  have hle := byteLe_append_left name (buildSuffix run) []
  rw [List.append_nil, h] at hle
  cases hle

theorem mem_names_moveScript {dir : List ScriptFile} {name : List Char}
    (h : name ∈ dir.map ScriptFile.name) (x : List Char) :
    x ∈ (moveScript run dir name).map ScriptFile.name ↔
      x = name ++ buildSuffix run ∨ (x ∈ dir.map ScriptFile.name ∧ x ≠ name) := by
  have hne : name ≠ name ++ buildSuffix run := fun heq =>
    buildSuffix_ne_nil run (List.self_eq_append_right.mp heq)
  rw [moveScript, List.map_map, List.mem_map]
  constructor
  · rintro ⟨file, hfile, rfl⟩
    rw [List.mem_filter] at hfile
    by_cases heq : file.name = name
    · left
      rw [Function.comp_apply, if_pos heq, ← heq]
      rfl
    · right
      rw [Function.comp_apply, if_neg heq]
      exact ⟨List.mem_map_of_mem hfile.1, heq⟩
  · rintro hx
    by_cases hlong : x = name ++ buildSuffix run
    · obtain ⟨file, hfile, rfl⟩ := List.mem_map.mp h
      refine ⟨file, List.mem_filter.mpr ⟨hfile, bne_iff_ne.mpr hne⟩, ?_⟩
      rw [Function.comp_apply, if_pos rfl, hlong]
      rfl
    · obtain ⟨hmem, hnot⟩ := hx.resolve_left hlong
      obtain ⟨file, hfile, rfl⟩ := List.mem_map.mp hmem
      refine ⟨file, List.mem_filter.mpr ⟨hfile, bne_iff_ne.mpr hlong⟩, ?_⟩
      rw [Function.comp_apply, if_neg hnot]

theorem nodup_names_moveScript {dir : List ScriptFile} (h : (dir.map ScriptFile.name).Nodup)
    (name : List Char) : ((moveScript run dir name).map ScriptFile.name).Nodup := by
  rw [moveScript, List.map_map]
  refine List.Nodup.map_on ?_ ((List.Nodup.of_map _ h).filter _)
  intro a ha b hb heq
  rw [List.mem_filter, bne_iff_ne] at ha hb
  refine List.inj_on_of_nodup_map h ha.1 hb.1 ?_
  rw [Function.comp_apply, Function.comp_apply] at heq
  -- only the file `name` gets another name, and no other file has it
  by_cases hna : a.name = name
  · by_cases hnb : b.name = name
    · rw [hna, hnb]
    · rw [if_pos hna, if_neg hnb] at heq
      exact absurd (hna ▸ heq.symm) hb.2
  · by_cases hnb : b.name = name
    · rw [if_neg hna, if_pos hnb] at heq
      exact absurd (hnb ▸ heq) ha.2
    · rwa [if_neg hna, if_neg hnb] at heq

/-- The names behind one round: those that are left, and the copies of those that are done. -/
theorem Moving.names_step {done rest : List (List Char)} {name : List Char} {dir : List ScriptFile}
    (h : Moving run files done (name :: rest) dir) (hfresh : name ∉ rest)
    (hlong : name ++ buildSuffix run ∉ done ++ [name]) (x : List Char) :
    x ∈ (moveScript run dir name).map ScriptFile.name ↔
      x ∈ rest ∨ ∃ n ∈ done ++ [name], x = n ++ buildSuffix run ∧ x ∉ done ++ [name] := by
  rw [mem_names_moveScript ((h.names name).mpr (Or.inl List.mem_cons_self)), h.names]
  constructor
  · rintro (rfl | ⟨hx | ⟨n, hn, rfl, hnot⟩, hne⟩)
    · exact Or.inr ⟨name, List.mem_append_right _ List.mem_cons_self, rfl, hlong⟩
    · exact Or.inl ((List.mem_cons.mp hx).resolve_left hne)
    · refine Or.inr ⟨n, List.mem_append_left _ hn, rfl, ?_⟩
      rw [List.mem_append, List.mem_singleton, not_or]
      exact ⟨hnot, hne⟩
  · rintro (hx | ⟨n, hn, rfl, hnot⟩)
    · exact Or.inr ⟨Or.inl (List.mem_cons_of_mem _ hx), fun heq => hfresh (heq ▸ hx)⟩
    · rw [List.mem_append, List.mem_singleton] at hn
      rw [List.mem_append, List.mem_singleton, not_or] at hnot
      rcases hn with hn | rfl
      · exact Or.inr ⟨Or.inr ⟨n, hn, rfl, hnot.1⟩, hnot.2⟩
      · exact Or.inl rfl

/-- The text of the script that is moved comes from the end of a chain that leads to its name. -/
theorem Moving.origin_step {done rest : List (List Char)} {dir : List ScriptFile}
    {old : ScriptFile} (h : Moving run files done (old.name :: rest) dir)
    (hall : ∀ n, n ∈ files.map ScriptFile.name ↔ n ∈ done ++ old.name :: rest)
    (hlater : ∀ n ∈ rest, byteLe old.name n = true) (hold : old ∈ dir) :
    ∃ start, Origin run files old.name start ∧ old.text.any unpacks = start.text.any unpacks := by
  rcases h.text old hold with ⟨hmem, -, hfree⟩ | ⟨n, hn, holdname, start, hstart, htext⟩
  · refine ⟨old, Origin.own hmem fun other hother hmoved => ?_, rfl⟩
    -- a script that is moved to this name stands before it
    have hothername := (hall other.name).mp (List.mem_map_of_mem hother)
    rcases List.mem_append.mp hothername with hdone | hmem
    · exact hfree _ hdone hmoved
    · refine not_byteLe_buildSuffix other.name run ?_
      rw [hmoved]
      rcases List.mem_cons.mp hmem with hsame | hmem
      · rw [hsame]
        exact (byteLe_total _ _).elim id id
      · exact hlater _ hmem
  · refine ⟨start, ?_, htext⟩
    rw [holdname]
    refine Origin.moved hstart ((hall _).mpr ?_)
    rw [← holdname]
    exact List.mem_append_right _ List.mem_cons_self

theorem Moving.step {done rest : List (List Char)} {name : List Char} {dir : List ScriptFile}
    (h : Moving run files done (name :: rest) dir)
    (hall : ∀ n, n ∈ files.map ScriptFile.name ↔ n ∈ done ++ name :: rest)
    (hnodup : (done ++ name :: rest).Nodup)
    (horder : (done ++ name :: rest).Pairwise fun a b => byteLe a b = true) :
    Moving run files (done ++ [name]) rest (moveScript run dir name) := by
  obtain ⟨-, hrestorder, hbefore⟩ := List.pairwise_append.mp horder
  have hlong : name ++ buildSuffix run ∉ done ++ [name] := by
    intro hmem
    refine not_byteLe_buildSuffix name run ?_
    rcases List.mem_append.mp hmem with hmem | hmem
    · exact hbefore _ hmem name List.mem_cons_self
    · rw [List.mem_singleton.mp hmem]
      exact (byteLe_total name name).elim id id
  have hfresh : name ∉ rest := by
    have hrest := (List.nodup_append.mp hnodup).2.1
    exact (List.nodup_cons.mp hrest).1
  refine ⟨nodup_names_moveScript h.distinct name, h.names_step hfresh hlong, fun file hfile => ?_⟩
  obtain ⟨old, hold, rfl⟩ := List.mem_map.mp hfile
  rw [List.mem_filter, bne_iff_ne] at hold
  by_cases heq : old.name = name
  · subst heq
    rw [if_pos rfl]
    obtain ⟨start, hstart, htext⟩ :=
      h.origin_step hall (List.pairwise_cons.mp hrestorder).1 hold.1
    refine Or.inr ⟨old.name, List.mem_append_right _ List.mem_cons_self, rfl, start, hstart, ?_⟩
    rw [any_unpacks_overwritten, htext]
  · rw [if_neg heq]
    rcases h.text old hold.1 with ⟨hmem, hrest, hfree⟩ | ⟨n, hn, holdname, hstart⟩
    · refine Or.inl ⟨hmem, (List.mem_cons.mp hrest).resolve_left heq, fun n hn => ?_⟩
      rcases List.mem_append.mp hn with hn | hn
      · exact hfree n hn
      · rw [List.mem_singleton.mp hn]
        exact hold.2.symm
    · exact Or.inr ⟨n, List.mem_append_left _ hn, holdname, hstart⟩

/-- **The loop over the names.** It begins with the scripts as they are and all names left, and ends
with no name left, so that every script has been moved. -/
theorem moving_moveScripts (hdistinct : (files.map ScriptFile.name).Nodup) :
    Moving run files (sortByName id (files.map ScriptFile.name)) [] (moveScripts run files) := by
  have hloop : ∀ (rest done : List (List Char)) (dir : List ScriptFile),
      done ++ rest = sortByName id (files.map ScriptFile.name) → Moving run files done rest dir →
        Moving run files (done ++ rest) [] (rest.foldl (moveScript run) dir) := by
    intro rest
    induction rest with
    | nil =>
      intro done dir _ h
      rwa [List.append_nil]
    | cons name rest ih =>
      intro done dir hsplit h
      have hstep : Moving run files (done ++ [name]) rest (moveScript run dir name) := by
        refine h.step (fun n => ?_) ?_ ?_
        · rw [hsplit, mem_sortByName]
        · rw [hsplit, (perm_sortByName id _).nodup_iff]
          exact hdistinct
        · rw [hsplit]
          exact pairwise_sortByName id _
      have hnext := ih (done ++ [name]) (moveScript run dir name) (by simpa using hsplit) hstep
      rwa [List.append_assoc, List.singleton_append] at hnext
  have hstart : Moving run files [] (sortByName id (files.map ScriptFile.name)) files := by
    refine ⟨hdistinct, fun name => ?_, fun file hfile => ?_⟩
    · rw [mem_sortByName]
      exact ⟨Or.inl, fun h => h.elim id fun ⟨_, hn, _⟩ => absurd hn List.not_mem_nil⟩
    · refine Or.inl ⟨hfile, ?_, fun _ hn => absurd hn List.not_mem_nil⟩
      exact (mem_sortByName id).mpr (List.mem_map_of_mem hfile)
  exact hloop _ [] files rfl hstart

theorem map_name_cleaned (dir : List ScriptFile) :
    (dir.map (ScriptFile.cleaned run)).map ScriptFile.name = dir.map ScriptFile.name := by
  rw [List.map_map]
  rfl

/-- What a rebuild finds: the names have the suffix, a name that a script had before is not
among them, and each copy unpacks what its origin does. -/
structure Copies (run : Nat) (files copies : List ScriptFile) : Prop where
  distinct : (copies.map ScriptFile.name).Nodup
  names : ∀ name, name ∈ copies.map ScriptFile.name ↔
    ∃ file ∈ files, name = file.name ++ buildSuffix run ∧ name ∉ files.map ScriptFile.name
  origin : ∀ copy ∈ copies, ∃ name start, Origin run files name start ∧
    copy.name = name ++ buildSuffix run ∧
      (pkgTarball copy.text).isEmpty = (pkgTarball start.text).isEmpty

theorem mem_names_moveScripts (hdistinct : (files.map ScriptFile.name).Nodup) (name : List Char) :
    name ∈ (moveScripts run files).map ScriptFile.name ↔
      ∃ file ∈ files, name = file.name ++ buildSuffix run ∧
        name ∉ files.map ScriptFile.name := by
  rw [(moving_moveScripts hdistinct).names]
  simp only [List.not_mem_nil, false_or, mem_sortByName, List.mem_map, exists_exists_and_eq_and]

/-- **The copies of a directory.** The names are known behind the loop, and the two `sed` behind it
change neither them nor what the scripts unpack. -/
theorem copies_spec (hdistinct : (files.map ScriptFile.name).Nodup) {copies : List ScriptFile}
    (h : copyChapter run files = some copies) : Copies run files copies := by
  have hmoving : Moving run files _ [] (moveScripts run files) := moving_moveScripts hdistinct
  have hcopies : copies = (moveScripts run files).map (ScriptFile.cleaned run) := by
    unfold copyChapter at h
    dsimp only at h
    split at h
    · exact (Option.some.inj h).symm
    · cases h
  rw [hcopies]
  refine ⟨?_, fun name => ?_, fun copy hcopy => ?_⟩
  · rw [map_name_cleaned]
    exact hmoving.distinct
  · rw [map_name_cleaned, mem_names_moveScripts hdistinct]
  · obtain ⟨file, hfile, rfl⟩ := List.mem_map.mp hcopy
    rcases hmoving.text file hfile with ⟨-, hrest, -⟩ | ⟨n, -, hname, start, hstart, htext⟩
    · cases hrest
    · refine ⟨n, start, hstart, hname, ?_⟩
      rw [pkgTarball_isEmpty, pkgTarball_isEmpty, any_unpacks_cleaned, htext]

/-- A pattern `*w$N` finds a copy. -/
theorem any_copyOf_iff (hdistinct : (files.map ScriptFile.name).Nodup) (w : String) :
    (moveScripts run files).any (copyOf w run) = true ↔
      ∃ name ∈ files.map ScriptFile.name, endsWith w name = true ∧
        name ++ buildSuffix run ∉ files.map ScriptFile.name := by
  rw [List.any_eq_true]
  constructor
  · rintro ⟨copy, hcopy, hw⟩
    obtain ⟨file, hfile, hname, hfree⟩ :=
      (mem_names_moveScripts hdistinct _).mp (List.mem_map_of_mem hcopy)
    exact ⟨file.name, List.mem_map_of_mem hfile, (copyOf_iff hname).mp hw, hname ▸ hfree⟩
  · rintro ⟨name, hname, hw, hfree⟩
    obtain ⟨file, hfile, rfl⟩ := List.mem_map.mp hname
    obtain ⟨copy, hcopy, hcopyname⟩ := List.mem_map.mp
      ((mem_names_moveScripts hdistinct _).mpr ⟨file, hfile, rfl, hfree⟩)
    exact ⟨copy, hcopy, (copyOf_iff hcopyname).mpr hw⟩

/-- The two `sed` behind the loop find their files. -/
theorem copyChapter_isSome (hdistinct : (files.map ScriptFile.name).Nodup) :
    (copyChapter run files).isSome = true ↔ ∀ w ∈ ["-bzip2", "-openssl"],
      ∃ name ∈ files.map ScriptFile.name, endsWith w name = true ∧
        name ++ buildSuffix run ∉ files.map ScriptFile.name := by
  have hboth : (copyChapter run files).isSome = true ↔
      (moveScripts run files).any (copyOf "-bzip2" run) = true ∧
        (moveScripts run files).any (copyOf "-openssl" run) = true := by
    unfold copyChapter
    dsimp only
    rw [← Bool.and_eq_true]
    split
    · next h => exact iff_of_true rfl h
    · next h => exact iff_of_false Bool.false_ne_true h
  rw [hboth, any_copyOf_iff hdistinct, any_copyOf_iff hdistinct, List.forall_mem_cons,
    List.forall_mem_singleton]

end Moves

end Jhalfs.Lfs
