import Jhalfs.Base.Padded
import Jhalfs.Lfs.Copies

/-!
# Writing the Makefile

The loops of `build_Makefile` (LFS/master.sh:230–268), of `chapter_targets`
(master.sh:14–227) and of `wrt_compare_targets` (func_compare.sh) over the directory of the
commands. A directory `chapterNN` has the scripts of a chapter. When the final system is
compared with rebuilds of itself, there is a directory `chapterNN-build_N` for each rebuild.
It collects its targets in a local variable that has the name of the chroot's list; they
are appended to this list afterwards.

The state of a run is the Makefile and the directories, each with its files. A run is `none`
when `jhalfs` ends on the way: it runs with `set -e`, so it ends when the scripts of a
chapter, or those that a `sed` is to change, are not there.

- `chapterPass` and `rebuildPass`: `chapter_targets` with one argument and with two. What they
  do when they end is said once (`chapterPass_eq_some`, `rebuildPass_eq_some`).
- `iterationPass` and `comparePass`: one iteration of the comparison, and all of them with the
  edit of the scripts that remove a user.
- `chapterStep`: one round of the loop over the chapters, and `writeMakefile`: all of
  `build_Makefile`, on the directory as it is found.
- `extracted`: the directory as the book is extracted to it.

What the passes do to the directories is small: they edit files and add copies of chapters
(`Grows`). So a chapter keeps the names of its scripts in a run (`Grows.lookup`).
-/

namespace Jhalfs.Lfs

open Text

/-! ## The directory of the commands -/

/-- The directories `chapter*` with their scripts. -/
abbrev Chapters := List (List Char × List ScriptFile)

/-- What is in the directory of the commands: the directories of the chapters and of their copies,
and the scripts in `custom-tools`. -/
structure Commands where
  chapters : Chapters
  customTools : List (List Char)

/-- The settings, and the scripts in `custom-commands`. `test` is `TEST`. -/
structure Job where
  settings : Settings
  test : Nat
  customTools : Bool
  customCommands : List (List Char)

/-- `printf -v dir chapter%02d $1`. -/
def chapterDir (chap : Nat) : List Char := "chapter".toList ++ pad 2 chap

/-- `${dir}$N`. -/
def copyDir (chap run : Nat) : List Char := chapterDir chap ++ buildSuffix run

/-- `chaps=($(echo chapter*))`: without a match it is one word (master.sh:254–255). -/
def countChapters (c : Chapters) : Nat := if c.isEmpty then 1 else c.length

/-- `sed -i` on the scripts of a directory. All scripts are edited, and none gets another name. -/
def editDir (c : Chapters) (dir : List Char) (edit : ScriptFile → ScriptFile) : Chapters :=
  c.map fun d => if d.1 = dir then (d.1, d.2.map edit) else d

/-- `s@/usr/lib/locale@/tools/lib/locale@` (master.sh:62–63). -/
def fixLocales (job : Job) (file : ScriptFile) : ScriptFile :=
  if startsWith "5" file.name && endsWith "glibc" file.name && job.test == 3 then
    { file with
      text := file.text.map fun line =>
        match cut "/usr/lib/locale".toList line with
        | some p => p.1 ++ "/tools/lib/locale".toList ++ p.2
        | none => line }
  else file

/-- `sed -i '/userdel/d' $dir/*revised*` on one file (func_compare.sh:27–30). -/
def keepUser (file : ScriptFile) : ScriptFile :=
  if contains file.name "revised".toList then
    { file with text := file.text.filter fun line => !contains line "userdel".toList }
  else file

/-! ## The scripts of one directory -/

/-- `for file in dir/*`. -/
def inNameOrder (files : List ScriptFile) : List ScriptFile := sortByName ScriptFile.name files

/-- The first build of a directory (master.sh:45–218). -/
def firstBuild (s : Settings) (nbChaps : Nat) (files : List ScriptFile) (chap : Nat)
    (m : Makefile) : Makefile :=
  ((inNameOrder files).map ScriptFile.script).foldl (addScript s nbChaps chap false) m

/-- The targets of the copies. `CHROOT_TGT` is local, and becomes `system_build`
(master.sh:23, 220–224). -/
def copiesTargets (s : Settings) (nbChaps : Nat) (copies : List ScriptFile) (chap : Nat)
    (m : Makefile) : Makefile :=
  let inner := ((inNameOrder copies).map ScriptFile.script).foldl (addScript s nbChaps chap true)
    { m with lists := setList m.lists .chrootTgt [] }
  { inner with
    systemBuild := inner.lists .chrootTgt
    lists := setList inner.lists .chrootTgt (m.lists .chrootTgt) }

/-! ## One run -/

/-- `chapter_targets $1`. Where there are no scripts, `sed` finds no file `chapterNN/*`. -/
def chapterPass (job : Job) (nbChaps chap : Nat) (x : Makefile × Chapters) :
    Option (Makefile × Chapters) :=
  match x.2.lookup (chapterDir chap) with
  | none => none
  | some [] => none
  | some (file :: files) =>
    some (firstBuild job.settings nbChaps ((file :: files).map (fixLocales job)) chap x.1,
      editDir x.2 (chapterDir chap) (fixLocales job))

/-- `chapter_targets $1 $2`. There is no second `mkdir` of one directory. -/
def rebuildPass (job : Job) (nbChaps chap run : Nat) (x : Makefile × Chapters) :
    Option (Makefile × Chapters) :=
  if (x.2.lookup (copyDir chap run)).isSome then none
  else
    (x.2.lookup (chapterDir chap)).bind fun files =>
      (copyChapter run files).map fun copies =>
        (copiesTargets job.settings nbChaps copies chap x.1, x.2 ++ [(copyDir chap run, copies)])

/-- `wrt_system_build` (func_compare.sh:38–60). -/
def systemBuildPass (job : Job) (nbChaps chap run : Nat) (prevIt : List Char)
    (x : Makefile × Chapters) : Option (Makefile × Chapters) :=
  (rebuildPass job nbChaps chap run x).map fun y =>
    let chroot := y.1.lists .chrootTgt ++ prevIt :: y.1.systemBuild
    let chroot := if run = job.settings.iterations then chroot ++ [iteration run] else chroot
    ({ y.1 with lists := setList y.1.lists .chrootTgt chroot }, y.2)

/-- One iteration, with `PREV_IT` (func_compare.sh:8–21). -/
def iterationPass (job : Job) (nbChaps chap : Nat) (x : (Makefile × Chapters) × List Char)
    (run : Nat) : Option ((Makefile × Chapters) × List Char) :=
  (if run ≠ 1 then systemBuildPass job nbChaps chap run x.2 x.1 else some x.1).map fun y =>
    ((y.1.wrtTarget (iteration run) .compareWork, y.2), iteration run)

/-- The directories in which `userdel` is removed (func_compare.sh:27–30). -/
def userDirs (job : Job) (chap : Nat) : List (List Char) :=
  chapterDir chap :: (List.range' 2 (job.settings.iterations - 2)).map (copyDir chap)

/-- `sed -i '/userdel/d'` in one directory, which has to have a script `*revised*`. -/
def keepUserPass (c : Chapters) (dir : List Char) : Option Chapters :=
  if ((c.lookup dir).getD []).any fun file => contains file.name "revised".toList then
    some (editDir c dir keepUser)
  else none

/-- `wrt_compare_targets` (func_compare.sh:4–32): the iterations one after the other, and then
the edit of the scripts that remove a user, in the chapter and in its copies. -/
def comparePass (job : Job) (nbChaps chap : Nat) (x : Makefile × Chapters) :
    Option (Makefile × Chapters) :=
  ((List.range' 1 job.settings.iterations).foldlM (iterationPass job nbChaps chap) (x, [])).bind
    fun y => ((userDirs job chap).foldlM keepUserPass y.1.2).map fun c => (y.1.1, c)

/-- One chapter in the loop of `build_Makefile` (master.sh:257–268): its targets, the target
that saves the tools behind the last chapter of these, and the comparison behind the final
system. -/
def chapterStep (job : Job) (nbChaps : Nat) (x : Makefile × Chapters) (chap : Nat) :
    Option (Makefile × Chapters) :=
  (chapterPass job nbChaps chap x).bind fun y =>
    let y := if chap = nbChaps ∧ job.settings.saveCh5 = true then (wrtSaveTarget y.1, y.2) else y
    if chap = 1 + nbChaps ∧ job.settings.compare = true then comparePass job nbChaps chap y
    else some y

/-- The rules of the custom tools, each on the one before (func_custom_pkgs:10–88). -/
def customRules : List Char → List (List Char) → List Rule
  | _, [] => []
  | prev, name :: names => ⟨name, prev, .chrootRunAsRoot⟩ :: customRules name names

/-- The rules for the chapters, and those of the custom tools with their list. -/
structure Written where
  makefile : Makefile
  customRules : List Rule
  customList : List (List Char)

/-- `wrt_CustomTools_target` (func_custom_pkgs:6–92). `chmod +x custom-tools/*` has to find a
file. -/
def customPass (job : Job) (m : Makefile) (c : Commands) : Option (Written × Commands) :=
  if job.customTools = true then
    let tools := c.customTools ++ job.customCommands
    if tools.isEmpty then none
    else some (⟨m, customRules [] job.customCommands, job.customCommands⟩, ⟨c.chapters, tools⟩)
  else some (⟨m, [], []⟩, c)

/-- `build_Makefile` (master.sh:230–270): the directories are counted, the chapters are gone
through in order from the fourth on, and the custom tools come last. -/
def writeMakefile (job : Job) (c : Commands) : Option (Written × Commands) :=
  let nbChaps := countChapters c.chapters
  ((List.range' 4 nbChaps).foldlM (chapterStep job nbChaps) (emptyMakefile, c.chapters)).bind
    fun x => customPass job x.1 ⟨x.2, c.customTools⟩

/-- The scripts of a book, as they are extracted. -/
def extracted (chapters : List (List ScriptFile)) : Commands :=
  ⟨(chapters.zipIdx 4).map fun x => (chapterDir x.2, x.1), []⟩

/-! ## The names in a directory -/

/-- The names of the directories and of their files. -/
def namesOf (c : Chapters) : List (List Char × List (List Char)) :=
  c.map fun d => (d.1, d.2.map ScriptFile.name)

theorem lookup_namesOf (c : Chapters) (dir : List Char) :
    (namesOf c).lookup dir = (c.lookup dir).map (List.map ScriptFile.name) := by
  induction c with
  | nil => rfl
  | cons d c ih =>
    have hcons : namesOf (d :: c) = (d.1, d.2.map ScriptFile.name) :: namesOf c := rfl
    rw [hcons, List.lookup_cons, ih, List.lookup_cons]
    cases dir == d.1 <;> rfl

theorem name_fixLocales (job : Job) (file : ScriptFile) :
    (fixLocales job file).name = file.name := by
  unfold fixLocales
  split
  · rfl
  · rfl

theorem names_fixLocales (job : Job) (files : List ScriptFile) :
    (files.map (fixLocales job)).map ScriptFile.name = files.map ScriptFile.name := by
  rw [List.map_map]
  exact List.map_congr_left fun file _ => name_fixLocales job file

theorem name_keepUser (file : ScriptFile) : (keepUser file).name = file.name := by
  unfold keepUser
  split
  · rfl
  · rfl

theorem dash_notMem_chapterDir (chap : Nat) : '-' ∉ chapterDir chap := by
  intro h
  rcases List.mem_append.mp h with h | h
  · revert h
    decide
  · have hdigit := isDigit_of_mem_pad h
    revert hdigit
    decide

theorem chapterDir_injective {i j : Nat} (h : chapterDir i = chapterDir j) : i = j := by
  have hpad := List.append_cancel_left h
  rw [← ofDigitChars_pad 2 i, hpad, ofDigitChars_pad]


theorem buildSuffix_injective {i j : Nat} (h : buildSuffix i = buildSuffix j) : i = j :=
  decimal_injective (List.append_cancel_left h)

theorem namesOf_editDir (c : Chapters) (dir : List Char) {edit : ScriptFile → ScriptFile}
    (hedit : ∀ file, (edit file).name = file.name) : namesOf (editDir c dir edit) = namesOf c := by
  have hname : ScriptFile.name ∘ edit = ScriptFile.name := funext hedit
  rw [namesOf, namesOf, editDir, List.map_map]
  refine List.map_congr_left fun d _ => ?_
  by_cases h : d.1 = dir
  · simp [h, hname]
  · simp [h]

theorem perm_inNameOrder (files : List ScriptFile) : (inNameOrder files).Perm files :=
  perm_sortByName ScriptFile.name files

@[simp] theorem mem_inNameOrder {files : List ScriptFile} {file : ScriptFile} :
    file ∈ inNameOrder files ↔ file ∈ files := mem_sortByName ScriptFile.name

theorem pairwise_inNameOrder (files : List ScriptFile) :
    (inNameOrder files).Pairwise fun a b => byteLe a.name b.name = true :=
  pairwise_sortByName ScriptFile.name files

theorem names_inNameOrder (files : List ScriptFile) :
    (inNameOrder files).map ScriptFile.name = sortByName id (files.map ScriptFile.name) :=
  map_sortByName ScriptFile.name files

/-- `c'` has the directories of `c` with the same names in them, and copies of chapters. This is all
that a pass does to the directories, as far as names go. -/
def Grows (c c' : Chapters) : Prop :=
  ∃ made : List (List Char × List (List Char)), namesOf c' = namesOf c ++ made ∧
    ∀ d ∈ made, ∃ chap run, d.1 = copyDir chap run

theorem Grows.refl (c : Chapters) : Grows c c :=
  ⟨[], (List.append_nil _).symm, fun _ h => absurd h List.not_mem_nil⟩

theorem Grows.trans {c c' c'' : Chapters} (h : Grows c c') (h' : Grows c' c'') : Grows c c'' := by
  obtain ⟨made, heq, hmade⟩ := h
  obtain ⟨made', heq', hmade'⟩ := h'
  refine ⟨made ++ made', by rw [heq', heq, List.append_assoc], fun d hd => ?_⟩
  exact (List.mem_append.mp hd).elim (hmade d) (hmade' d)

theorem grows_editDir (c : Chapters) (dir : List Char) {edit : ScriptFile → ScriptFile}
    (hedit : ∀ file, (edit file).name = file.name) : Grows c (editDir c dir edit) :=
  ⟨[], by rw [namesOf_editDir c dir hedit, List.append_nil], fun _ h => absurd h List.not_mem_nil⟩

/-- A copy is no chapter. -/
theorem chapterDir_ne_copyDir (i chap run : Nat) : chapterDir i ≠ copyDir chap run := by
  intro h
  refine dash_notMem_chapterDir i (h ▸ List.mem_append_right _ (List.mem_append_left _ ?_))
  decide

/-- The names of the scripts of a chapter stay as they are. -/
theorem Grows.lookup {c c' : Chapters} (h : Grows c c') (chap : Nat) :
    (c'.lookup (chapterDir chap)).map (List.map ScriptFile.name) =
      (c.lookup (chapterDir chap)).map (List.map ScriptFile.name) := by
  obtain ⟨made, heq, hmade⟩ := h
  have hnone : made.lookup (chapterDir chap) = none := by
    rw [List.lookup_eq_none_iff]
    intro d hd
    obtain ⟨i, run, hdir⟩ := hmade d hd
    rw [bne_iff_ne, hdir]
    exact chapterDir_ne_copyDir chap i run
  rw [← lookup_namesOf, ← lookup_namesOf, heq, List.lookup_append, hnone, Option.or_none]

theorem lookup_editDir (c : Chapters) (dir : List Char) (edit : ScriptFile → ScriptFile)
    (dir' : List Char) : (editDir c dir edit).lookup dir' =
      if dir' = dir then (c.lookup dir').map (List.map edit) else c.lookup dir' := by
  induction c with
  | nil => simp [editDir]
  | cons d c ih =>
    have hcons : editDir (d :: c) dir edit =
        (if d.1 = dir then (d.1, d.2.map edit) else d) :: editDir c dir edit := rfl
    have hfirst : (if d.1 = dir then (d.1, d.2.map edit) else d).1 = d.1 := by
      split
      · rfl
      · rfl
    rw [hcons, List.lookup_cons, List.lookup_cons, ih, hfirst]
    by_cases hdir : dir' = d.1
    · rw [hdir, beq_self_eq_true]
      by_cases hd : d.1 = dir
      · simp [hd]
      · simp [hd]
    · have hne : (dir' == d.1) = false := beq_eq_false_iff_ne.mpr hdir
      rw [hne]

/-! ## What the passes do to the directories -/

/-- A loop whose steps only add copies. -/
theorem grows_foldlM {α β : Type} {step : β → α → Option β} (dirs : β → Chapters)
    (h : ∀ x a y, step x a = some y → Grows (dirs x) (dirs y)) {items : List α} {x y : β}
    (hfold : items.foldlM step x = some y) : Grows (dirs x) (dirs y) := by
  induction items generalizing x with
  | nil =>
    cases hfold
    exact Grows.refl _
  | cons a items ih =>
    rw [List.foldlM_cons] at hfold
    obtain ⟨z, hz, hrest⟩ := Option.bind_eq_some_iff.mp hfold
    exact (h x a z hz).trans (ih hrest)

section Passes

variable {job : Job} {nbChaps chap run : Nat}

/-- **What `chapter_targets $1` does.** It ends if the chapter has scripts, writes their targets,
and edits them. -/
theorem chapterPass_eq_some {x y : Makefile × Chapters} :
    chapterPass job nbChaps chap x = some y ↔ ∃ files ≠ [],
      x.2.lookup (chapterDir chap) = some files ∧
        y = (firstBuild job.settings nbChaps (files.map (fixLocales job)) chap x.1,
          editDir x.2 (chapterDir chap) (fixLocales job)) := by
  unfold chapterPass
  cases hlookup : x.2.lookup (chapterDir chap) with
  | none => simp
  | some files =>
    cases files with
    | nil => simp
    | cons file files => simp [eq_comm]

/-- **What `chapter_targets $1 $2` does.** It ends if the copies have no directory yet and can be
made, writes their targets, and adds their directory. -/
theorem rebuildPass_eq_some {x y : Makefile × Chapters} :
    rebuildPass job nbChaps chap run x = some y ↔
      x.2.lookup (copyDir chap run) = none ∧ ∃ files copies,
        x.2.lookup (chapterDir chap) = some files ∧ copyChapter run files = some copies ∧
          y = (copiesTargets job.settings nbChaps copies chap x.1,
            x.2 ++ [(copyDir chap run, copies)]) := by
  unfold rebuildPass
  cases x.2.lookup (copyDir chap run) with
  | some files => simp
  | none =>
    rw [Option.isSome_none, if_neg Bool.false_ne_true, Option.bind_eq_some_iff]
    simp only [Option.map_eq_some_iff, true_and, exists_and_left]
    simp only [eq_comm]

/-- The target for the saved tools changes the Makefile alone. -/
theorem chapterStep_eq (x : Makefile × Chapters) : chapterStep job nbChaps x chap =
    (chapterPass job nbChaps chap x).bind fun y =>
      let m := if chap = nbChaps ∧ job.settings.saveCh5 = true then wrtSaveTarget y.1 else y.1
      if chap = 1 + nbChaps ∧ job.settings.compare = true then
        comparePass job nbChaps chap (m, y.2)
      else some (m, y.2) := by
  have hpair : ∀ y : Makefile × Chapters,
      (if chap = nbChaps ∧ job.settings.saveCh5 = true then (wrtSaveTarget y.1, y.2) else y) =
        (if chap = nbChaps ∧ job.settings.saveCh5 = true then wrtSaveTarget y.1 else y.1,
          y.2) := by
    intro y
    split
    · rfl
    · rfl
  simp only [chapterStep, hpair]

theorem grows_chapterPass {x y : Makefile × Chapters}
    (h : chapterPass job nbChaps chap x = some y) : Grows x.2 y.2 := by
  obtain ⟨files, -, -, rfl⟩ := chapterPass_eq_some.mp h
  exact grows_editDir _ _ (name_fixLocales job)

theorem grows_rebuildPass {x y : Makefile × Chapters}
    (h : rebuildPass job nbChaps chap run x = some y) : Grows x.2 y.2 := by
  obtain ⟨-, files, copies, -, -, rfl⟩ := rebuildPass_eq_some.mp h
  refine ⟨[(copyDir chap run, copies.map ScriptFile.name)], ?_, ?_⟩
  · simp [namesOf]
  · intro d hd
    rw [List.mem_singleton.mp hd]
    exact ⟨chap, run, rfl⟩

theorem grows_systemBuildPass {prevIt : List Char} {x y : Makefile × Chapters}
    (h : systemBuildPass job nbChaps chap run prevIt x = some y) : Grows x.2 y.2 := by
  obtain ⟨z, hz, rfl⟩ := Option.map_eq_some_iff.mp h
  have hgrows : Grows x.2 z.2 := grows_rebuildPass hz
  exact hgrows

theorem grows_iterationPass {x y : (Makefile × Chapters) × List Char}
    (h : iterationPass job nbChaps chap x run = some y) : Grows x.1.2 y.1.2 := by
  obtain ⟨z, hz, rfl⟩ := Option.map_eq_some_iff.mp h
  split at hz
  · have hgrows : Grows x.1.2 z.2 := grows_systemBuildPass hz
    exact hgrows
  · cases hz
    exact Grows.refl _

theorem grows_keepUserPass {c d : Chapters} {dir : List Char} (h : keepUserPass c dir = some d) :
    Grows c d := by
  unfold keepUserPass at h
  split at h
  · cases h
    exact grows_editDir _ _ name_keepUser
  · cases h

theorem grows_iterations {runs : List Nat} {x y : (Makefile × Chapters) × List Char}
    (h : runs.foldlM (iterationPass job nbChaps chap) x = some y) : Grows x.1.2 y.1.2 :=
  grows_foldlM (fun u : (Makefile × Chapters) × List Char => u.1.2)
    (fun _ _ _ => grows_iterationPass) h

theorem grows_comparePass {x y : Makefile × Chapters}
    (h : comparePass job nbChaps chap x = some y) : Grows x.2 y.2 := by
  obtain ⟨z, hz, husers⟩ := Option.bind_eq_some_iff.mp h
  obtain ⟨c, hc, rfl⟩ := Option.map_eq_some_iff.mp husers
  exact (grows_iterations hz).trans (grows_foldlM id (fun _ _ _ => grows_keepUserPass) hc)

theorem grows_chapterStep {x y : Makefile × Chapters}
    (h : chapterStep job nbChaps x chap = some y) : Grows x.2 y.2 := by
  rw [chapterStep_eq] at h
  obtain ⟨z, hz, hrest⟩ := Option.bind_eq_some_iff.mp h
  refine (grows_chapterPass hz).trans ?_
  dsimp only at hrest
  split at hrest
  · have hgrows := grows_comparePass hrest
    exact hgrows
  · cases hrest
    exact Grows.refl _

theorem makefile_customPass {m : Makefile} {c left : Commands} {w : Written}
    (h : customPass job m c = some (w, left)) : w.makefile = m := by
  unfold customPass at h
  split at h
  · dsimp only at h
    split at h
    · cases h
    · cases h
      rfl
  · cases h
    rfl

end Passes

/-! ## The scripts of a book -/

theorem countChapters_extracted (chapters : List (List ScriptFile)) :
    countChapters (extracted chapters).chapters = max 1 chapters.length := by
  cases chapters with
  | nil => rfl
  | cons files chapters => simp [countChapters, extracted]

/-- The scripts of a book are found chapter by chapter. -/
theorem lookup_extracted (chapters : List (List ScriptFile)) (i : Nat) :
    (extracted chapters).chapters.lookup (chapterDir (4 + i)) = chapters[i]? := by
  have hall : ∀ (chapters : List (List ScriptFile)) (k i : Nat),
      ((chapters.zipIdx k).map fun x => (chapterDir x.2, x.1)).lookup (chapterDir (k + i)) =
        chapters[i]? := by
    intro chapters
    induction chapters with
    | nil => exact fun _ _ => rfl
    | cons files chapters ih =>
      intro k i
      rw [List.zipIdx_cons, List.map_cons, List.lookup_cons]
      cases i with
      | zero => simp
      | succ i =>
        have hne : (chapterDir (k + (i + 1)) == chapterDir k) = false := by
          rw [beq_eq_false_iff_ne]
          intro heq
          have hchap := chapterDir_injective heq
          omega
        rw [hne, List.getElem?_cons_succ, ← ih (k + 1) i, Nat.add_right_comm, Nat.add_assoc]
  exact hall chapters 4 i

end Jhalfs.Lfs
