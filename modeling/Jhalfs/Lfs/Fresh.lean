import Mathlib.Data.List.Nodup
import Mathlib.Data.List.Perm.Subperm
import Mathlib.Data.List.Pairwise
import Mathlib.Logic.ExistsUnique
import Jhalfs.Lfs.Chain
import Jhalfs.Lfs.Complete

/-!
# Each target is written once

The names of the scripts begin with a digit, so they are not the names of the targets that
the generator makes up, `save-ch5` and `iteration-N`. A rebuilt script has the suffix
`-build_N`. So a plan of all targets that a run can write, with no script skipped, has no name
twice (`nodup_planned`).

- `CommandTree`: the chapters as the stylesheet writes them. The names are numbered and
  distinct, and none is that of another one with the suffix.
- `plannedRun`, `plannedChapter` and `planned`: the plan of an iteration, of a chapter and of
  the book.
- `Follows`: a run writes some of the targets of its plan, each at most as often as the plan has
  it. This composes over passes, and each pass has its plan. The order is not that of the
  plan: the scripts of a directory are sorted, and the copies are sorted again by their new
  names.

So no target is written twice (`nodup_targets`), and each is in one list alone.

**Main result**: `writeMakefile_chain`. For a book whose run ends the rules are one chain, the
five lists of `Lfs.Chain` hold all targets in its order, and each target is in exactly one list.

The condition on the final system is needed: in `bootTree` the boot scripts are installed with
it, and the targets of the iterations come before them in the lists.
-/

namespace Jhalfs.Lfs

open Text

/-! ## Command trees -/

/-- The chapters of scripts that lfs.xsl writes, from chapter 4 on. A name is a number, a
hyphen and the name of the page (lfs.xsl:139–147 and 387). -/
structure CommandTree where
  chapters : List (List ScriptFile)
  numbered : ∀ file ∈ chapters.flatten, file.name.head?.any Char.isDigit = true
  distinct : (chapters.flatten.map ScriptFile.name).Nodup
  original : ∀ a ∈ chapters.flatten, ∀ b ∈ chapters.flatten, ∀ run,
    a.name ≠ b.name ++ buildSuffix run

/-- Names without an underscore are not those of a copy. -/
theorem original_of_notMem {files : List ScriptFile}
    (h : (files.all fun file => !file.name.contains '_') = true) :
    ∀ a ∈ files, ∀ b ∈ files, ∀ run, a.name ≠ b.name ++ buildSuffix run := by
  intro a ha b _ run heq
  have hnot := List.all_eq_true.mp h a ha
  have hmem : '_' ∈ a.name := by
    rw [heq]
    exact List.mem_append_right _ (List.mem_append_left _ (by decide))
  rw [List.contains_iff_mem.mpr hmem] at hnot
  cases hnot

/-! ## The plan -/

/-- The targets of an iteration, with all scripts rebuilt. -/
def plannedRun (names : List (List Char)) (run : Nat) : List (List Char) :=
  (if run ≠ 1 then names.map (· ++ buildSuffix run) else []) ++ [iteration run]

/-- The targets of a chapter, with no script skipped. -/
def plannedChapter (s : Settings) (nbChaps : Nat) (names : List (List Char)) (chap : Nat) :
    List (List Char) :=
  names ++ ((if chap = nbChaps ∧ s.saveCh5 = true then [saveCh5] else []) ++
    if chap = 1 + nbChaps ∧ s.compare = true then
      (List.range' 1 s.iterations).flatMap (plannedRun names)
    else [])

def planned (s : Settings) (chapters : List (List ScriptFile)) : List (List Char) :=
  (chapters.zipIdx 4).flatMap fun x =>
    plannedChapter s chapters.length (x.1.map ScriptFile.name) x.2

/-- `m'` comes from `m` by writing some of the targets of a plan, each at most as often as the plan
has it and in any order. -/
def Follows (plan : List (List Char)) (m m' : Makefile) : Prop :=
  ∃ added, added.Subperm plan ∧ targets m' = targets m ++ added

theorem Follows.refl (m : Makefile) : Follows [] m m :=
  ⟨[], List.Subperm.refl _, (List.append_nil _).symm⟩

theorem Follows.trans {plan plan' : List (List Char)} {m m' m'' : Makefile}
    (h : Follows plan m m') (h' : Follows plan' m' m'') : Follows (plan ++ plan') m m'' := by
  obtain ⟨added, hsub, heq⟩ := h
  obtain ⟨added', hsub', heq'⟩ := h'
  refine ⟨added ++ added', hsub.append hsub', ?_⟩
  rw [heq', heq, List.append_assoc]

theorem Follows.mono {plan plan' : List (List Char)} {m m' : Makefile} (h : Follows plan m m')
    (hsub : plan.Subperm plan') : Follows plan' m m' := by
  obtain ⟨added, hadded, heq⟩ := h
  exact ⟨added, hadded.trans hsub, heq⟩

theorem follows_wrtTarget (m : Makefile) (name : List Char) (r : Recipe) :
    Follows [name] m (m.wrtTarget name r) :=
  ⟨[name], List.Subperm.refl _, targets_wrtTarget m name r⟩

theorem follows_addScript (s : Settings) (nbChaps chap : Nat) (rebuild : Bool) (m : Makefile)
    (sc : Script) : Follows [sc.name] m (addScript s nbChaps chap rebuild m sc) := by
  have hskip : Follows [sc.name] m m := ⟨[], List.nil_subperm, (List.append_nil _).symm⟩
  unfold addScript
  split
  · exact hskip
  · split
    · exact hskip
    · dsimp only
      split
      · exact follows_wrtTarget _ sc.name _
      · exact follows_wrtTarget _ sc.name _

/-- The scripts of a directory, which are sorted first. -/
theorem follows_scripts (s : Settings) (nbChaps chap : Nat) (rebuild : Bool)
    (files : List ScriptFile) (m : Makefile) : Follows (files.map ScriptFile.name) m
      (((inNameOrder files).map ScriptFile.script).foldl (addScript s nbChaps chap rebuild) m) := by
  have hall : ∀ (scripts : List Script) (m : Makefile), Follows (scripts.map Script.name) m
      (scripts.foldl (addScript s nbChaps chap rebuild) m) := by
    intro scripts
    induction scripts with
    | nil => exact Follows.refl
    | cons sc scripts ih =>
      exact fun m => (follows_addScript s nbChaps chap rebuild m sc).trans (ih _)
  refine (hall _ m).mono ?_
  rw [List.map_map]
  exact ((perm_inNameOrder files).map ScriptFile.name).subperm

section Passes

variable {job : Job} {nbChaps chap : Nat} {names : List (List Char)}

theorem follows_iterationPass {run : Nat} {x y : (Makefile × Chapters) × List Char}
    (hpass : iterationPass job nbChaps chap x run = some y) (hnames : HasScripts x.1.2 chap names) :
    Follows (plannedRun names run) x.1.1 y.1.1 := by
  obtain ⟨z, hz, rfl⟩ := Option.map_eq_some_iff.mp hpass
  refine Follows.trans ?_ (follows_wrtTarget z.1 (iteration run) .compareWork)
  split at hz
  · next hrun =>
    rw [if_pos hrun]
    obtain ⟨u, hu, rfl⟩ := Option.map_eq_some_iff.mp hz
    obtain ⟨-, files, copies, hfiles, hcopies, rfl⟩ := rebuildPass_eq_some.mp hu
    have hlookup := hnames.2
    rw [hfiles, Option.map_some, Option.some.injEq] at hlookup
    have hspec := copies_spec (hlookup ▸ hnames.1) hcopies
    -- the lists and `system_build` are not what is written
    have hbuilt := follows_scripts job.settings nbChaps chap true copies
      { x.1.1 with lists := setList x.1.1.lists .chrootTgt [] }
    refine Follows.mono hbuilt (hspec.distinct.subperm fun name hname => ?_)
    obtain ⟨file, hfile, rfl, -⟩ := (hspec.names name).mp hname
    exact List.mem_map_of_mem (hlookup ▸ List.mem_map_of_mem hfile)
  · next hrun =>
    rw [if_neg hrun]
    cases hz
    exact Follows.refl _

theorem follows_iterations {runs : List Nat} {x y : (Makefile × Chapters) × List Char}
    (hpass : runs.foldlM (iterationPass job nbChaps chap) x = some y)
    (hnames : HasScripts x.1.2 chap names) :
    Follows (runs.flatMap (plannedRun names)) x.1.1 y.1.1 := by
  induction runs generalizing x with
  | nil =>
    cases hpass
    exact Follows.refl _
  | cons run runs ih =>
    rw [List.foldlM_cons] at hpass
    obtain ⟨z, hz, hrest⟩ := Option.bind_eq_some_iff.mp hpass
    exact (follows_iterationPass hz hnames).trans
      (ih hrest (hnames.grows (grows_iterationPass hz)))

theorem follows_chapterStep {x y : Makefile × Chapters}
    (hpass : chapterStep job nbChaps x chap = some y) (hnames : HasScripts x.2 chap names) :
    Follows (plannedChapter job.settings nbChaps names chap) x.1 y.1 := by
  rw [chapterStep_eq] at hpass
  obtain ⟨z, hz, hrest⟩ := Option.bind_eq_some_iff.mp hpass
  have hnames' := hnames.grows (grows_chapterPass hz)
  obtain ⟨files, -, hfiles, rfl⟩ := chapterPass_eq_some.mp hz
  have hlookup := hnames.2
  rw [hfiles, Option.map_some, Option.some.injEq] at hlookup
  have hscripts := follows_scripts job.settings nbChaps chap false
    (files.map (fixLocales job)) x.1
  rw [names_fixLocales, hlookup] at hscripts
  refine Follows.trans hscripts ?_
  dsimp only at hrest hnames'
  have hsave : ∀ m : Makefile,
      Follows (if chap = nbChaps ∧ job.settings.saveCh5 = true then [saveCh5] else []) m
        (if chap = nbChaps ∧ job.settings.saveCh5 = true then wrtSaveTarget m else m) := by
    intro m
    split
    · exact follows_wrtTarget m saveCh5 .saveWork
    · exact Follows.refl m
  refine Follows.trans (hsave _) ?_
  split at hrest
  · next hcompare =>
    rw [if_pos hcompare]
    obtain ⟨u, hu, husers⟩ := Option.bind_eq_some_iff.mp hrest
    obtain ⟨c, -, rfl⟩ := Option.map_eq_some_iff.mp husers
    exact follows_iterations hu hnames'
  · next hcompare =>
    rw [if_neg hcompare]
    cases hrest
    exact Follows.refl _

/-- The chapters one after the other. -/
theorem follows_chapters {chapters : List (List ScriptFile)}
    (hdistinct : ∀ files ∈ chapters, (files.map ScriptFile.name).Nodup) {chap : Nat}
    {x y : Makefile × Chapters}
    (hlookup : ∀ i, (x.2.lookup (chapterDir (chap + i))).map (List.map ScriptFile.name) =
      chapters[i]?.map (List.map ScriptFile.name))
    (hpass : (List.range' chap chapters.length).foldlM (chapterStep job nbChaps) x = some y) :
    Follows ((chapters.zipIdx chap).flatMap fun x =>
      plannedChapter job.settings nbChaps (x.1.map ScriptFile.name) x.2) x.1 y.1 := by
  induction chapters generalizing chap x with
  | nil =>
    cases hpass
    exact Follows.refl _
  | cons files chapters ih =>
    rw [List.length_cons, List.range'_succ, List.foldlM_cons] at hpass
    obtain ⟨z, hz, hrest⟩ := Option.bind_eq_some_iff.mp hpass
    have hnames : HasScripts x.2 chap (files.map ScriptFile.name) :=
      ⟨hdistinct files List.mem_cons_self, hlookup 0⟩
    rw [List.zipIdx_cons, List.flatMap_cons]
    refine (follows_chapterStep hz hnames).trans (ih ?_ (fun i => ?_) hrest)
    · exact fun files' h => hdistinct files' (List.mem_cons_of_mem _ h)
    · rw [(grows_chapterStep hz).lookup, Nat.add_assoc, Nat.add_comm 1 i, hlookup (i + 1),
        List.getElem?_cons_succ]

theorem targets_subperm_planned {chapters : List (List ScriptFile)}
    (hdistinct : ∀ files ∈ chapters, (files.map ScriptFile.name).Nodup) {w : Written}
    {left : Commands} (hpass : writeMakefile job (extracted chapters) = some (w, left)) :
    (targets w.makefile).Subperm (planned job.settings chapters) := by
  obtain ⟨last, hlast, hcustom⟩ := Option.bind_eq_some_iff.mp hpass
  rw [makefile_customPass hcustom]
  cases chapters with
  | nil => cases hlast
  | cons files rest =>
    have hmax : max 1 (files :: rest).length = (files :: rest).length :=
      Nat.max_eq_right (Nat.succ_pos rest.length)
    rw [countChapters_extracted, hmax] at hlast
    obtain ⟨added, hsub, heq⟩ := follows_chapters hdistinct
      (fun i => by rw [lookup_extracted]) hlast
    rw [heq]
    exact hsub

end Passes

/-! ## No name twice -/

theorem iteration_injective {i j : Nat} (h : iteration i = iteration j) : i = j :=
  decimal_injective (List.append_cancel_left h)

/-- A rebuilt name tells the script and the build. -/
theorem copyName_injective {a b : List Char} {i j : Nat}
    (h : a ++ buildSuffix i = b ++ buildSuffix j) : a = b ∧ i = j := by
  have hdigit : ∀ n : Nat, '_' ∉ decimal n := fun n hmem => by
    have hdigit := isDigit_of_mem_decimal hmem
    revert hdigit
    decide
  have hsplit : ∀ (name : List Char) (n : Nat),
      name ++ buildSuffix n = (name ++ "-build".toList) ++ '_' :: decimal n := by
    intro name n
    show name ++ ("-build_".toList ++ decimal n) = _
    rw [List.append_assoc]
    rfl
  rw [hsplit, hsplit, List.append_eq_append_iff] at h
  -- the last `_` of one name is the last `_` of the other
  rcases h with ⟨u, hname, htail⟩ | ⟨u, hname, htail⟩
  · cases u with
    | nil =>
      rw [List.append_nil] at hname
      rw [List.nil_append, List.cons_inj_right] at htail
      exact ⟨(List.append_cancel_right hname).symm, decimal_injective htail⟩
    | cons c u =>
      rw [List.cons_append, List.cons.injEq] at htail
      exact absurd (htail.2 ▸ List.mem_append_right u List.mem_cons_self) (hdigit i)
  · cases u with
    | nil =>
      rw [List.append_nil] at hname
      rw [List.nil_append, List.cons_inj_right] at htail
      exact ⟨List.append_cancel_right hname, (decimal_injective htail).symm⟩
    | cons c u =>
      rw [List.cons_append, List.cons.injEq] at htail
      exact absurd (htail.2 ▸ List.mem_append_right u List.mem_cons_self) (hdigit j)

/-- The targets of scripts begin with a digit. -/
def Numbered (name : List Char) : Prop := name.head?.any Char.isDigit = true

theorem Numbered.append {name : List Char} (h : Numbered name) (t : List Char) :
    Numbered (name ++ t) := by
  unfold Numbered at *
  cases name with
  | nil => cases h
  | cons c name => exact h

theorem not_numbered_iteration (run : Nat) : ¬ Numbered (iteration run) := by
  intro h
  cases h

theorem not_numbered_saveCh5 : ¬ Numbered saveCh5 := by
  intro h
  cases h

theorem iteration_ne_saveCh5 (run : Nat) : iteration run ≠ saveCh5 := by
  intro h
  exact absurd (congrArg List.head? h) (by
    show some 'i' ≠ some 's'
    decide)

section Planned

variable {names : List (List Char)} {name : List Char}

theorem mem_plannedRun {run : Nat} (h : name ∈ plannedRun names run) :
    (∃ n ∈ names, name = n ++ buildSuffix run) ∨ name = iteration run := by
  rcases List.mem_append.mp h with h | h
  · split at h
    · obtain ⟨n, hn, rfl⟩ := List.mem_map.mp h
      exact Or.inl ⟨n, hn, rfl⟩
    · cases h
  · exact Or.inr (List.mem_singleton.mp h)

theorem nodup_plannedRun (hdistinct : names.Nodup) (hnumbered : ∀ n ∈ names, Numbered n)
    (run : Nat) : (plannedRun names run).Nodup := by
  unfold plannedRun
  refine List.Nodup.append ?_ (List.nodup_singleton _) ?_
  · split
    · exact hdistinct.map fun a b h => List.append_cancel_right h
    · exact List.nodup_nil
  · intro name hname hiteration
    rw [List.mem_singleton] at hiteration
    subst hiteration
    split at hname
    · obtain ⟨n, hn, heq⟩ := List.mem_map.mp hname
      exact not_numbered_iteration run (heq ▸ (hnumbered n hn).append _)
    · cases hname

/-- What is written for the iterations. -/
theorem mem_plannedRuns {runs : List Nat} (h : name ∈ runs.flatMap (plannedRun names)) :
    (∃ run, ∃ n ∈ names, name = n ++ buildSuffix run) ∨ ∃ run, name = iteration run := by
  obtain ⟨run, -, hname⟩ := List.mem_flatMap.mp h
  rcases mem_plannedRun hname with ⟨n, hn, rfl⟩ | rfl
  · exact Or.inl ⟨run, n, hn, rfl⟩
  · exact Or.inr ⟨run, rfl⟩

theorem nodup_plannedRuns (hdistinct : names.Nodup) (hnumbered : ∀ n ∈ names, Numbered n)
    {runs : List Nat} (hruns : runs.Nodup) : (runs.flatMap (plannedRun names)).Nodup := by
  rw [List.nodup_flatMap]
  refine ⟨fun run _ => nodup_plannedRun hdistinct hnumbered run, hruns.imp ?_⟩
  intro i j hne name hi hj
  rcases mem_plannedRun hi with ⟨a, ha, rfl⟩ | rfl
  · rcases mem_plannedRun hj with ⟨b, hb, heq⟩ | heq
    · exact hne (copyName_injective heq).2
    · exact not_numbered_iteration j (heq ▸ (hnumbered a ha).append _)
  · rcases mem_plannedRun hj with ⟨b, hb, heq⟩ | heq
    · exact not_numbered_iteration i (heq ▸ (hnumbered b hb).append _)
    · exact hne (iteration_injective heq)

theorem mem_plannedChapter {s : Settings} {nbChaps chap : Nat}
    (h : name ∈ plannedChapter s nbChaps names chap) :
    name ∈ names ∨ (chap = nbChaps ∧ name = saveCh5) ∨
      (chap = 1 + nbChaps ∧
        ((∃ run, ∃ n ∈ names, name = n ++ buildSuffix run) ∨ ∃ run, name = iteration run)) := by
  rcases List.mem_append.mp h with h | h
  · exact Or.inl h
  · rcases List.mem_append.mp h with h | h
    · split at h
      · next hsave => exact Or.inr (Or.inl ⟨hsave.1, List.mem_singleton.mp h⟩)
      · cases h
    · split at h
      · next hcompare => exact Or.inr (Or.inr ⟨hcompare.1, mem_plannedRuns h⟩)
      · cases h

end Planned

namespace CommandTree

variable (tree : CommandTree)

theorem exists_file {files : List ScriptFile} (h : files ∈ tree.chapters) {name : List Char}
    (hname : name ∈ files.map ScriptFile.name) :
    ∃ file ∈ tree.chapters.flatten, file.name = name := by
  obtain ⟨file, hfile, rfl⟩ := List.mem_map.mp hname
  exact ⟨file, List.mem_flatten.mpr ⟨files, h, hfile⟩, rfl⟩

theorem numbered_of_mem {files : List ScriptFile} (h : files ∈ tree.chapters) :
    ∀ name ∈ files.map ScriptFile.name, Numbered name := by
  intro name hname
  obtain ⟨file, hfile, rfl⟩ := tree.exists_file h hname
  exact tree.numbered file hfile

theorem original_of_mem {a b : List ScriptFile} (ha : a ∈ tree.chapters) (hb : b ∈ tree.chapters)
    {name other : List Char} (hname : name ∈ a.map ScriptFile.name)
    (hother : other ∈ b.map ScriptFile.name) (run : Nat) : name ≠ other ++ buildSuffix run := by
  obtain ⟨file, hfile, rfl⟩ := tree.exists_file ha hname
  obtain ⟨file', hfile', rfl⟩ := tree.exists_file hb hother
  exact tree.original file hfile file' hfile' run

theorem nodup_names :
    (∀ files ∈ tree.chapters, (files.map ScriptFile.name).Nodup) ∧
      tree.chapters.Pairwise fun a b =>
        List.Disjoint (a.map ScriptFile.name) (b.map ScriptFile.name) := by
  have hdistinct := tree.distinct
  rw [List.map_flatten, List.nodup_flatten, List.pairwise_map] at hdistinct
  exact ⟨fun files h => hdistinct.1 _ (List.mem_map_of_mem h), hdistinct.2⟩

theorem nodup_plannedChapter (s : Settings) (nbChaps chap : Nat) {files : List ScriptFile}
    (h : files ∈ tree.chapters) :
    (plannedChapter s nbChaps (files.map ScriptFile.name) chap).Nodup := by
  have hdistinct := tree.nodup_names.1 files h
  have hnumbered := tree.numbered_of_mem h
  unfold plannedChapter
  refine hdistinct.append ?_ ?_
  · refine List.Nodup.append ?_ ?_ ?_
    · split
      · exact List.nodup_singleton _
      · exact List.nodup_nil
    · split
      · exact nodup_plannedRuns hdistinct hnumbered List.nodup_range'
      · exact List.nodup_nil
    · intro name hsave hruns
      split at hsave
      · next hsaved =>
        split at hruns
        · -- the two chapters are not the same
          next hcompare =>
          have hchap := hsaved.1.symm.trans hcompare.1
          omega
        · cases hruns
      · cases hsave
  · intro name hname hmade
    rcases List.mem_append.mp hmade with hsave | hruns
    · split at hsave
      · exact not_numbered_saveCh5 (List.mem_singleton.mp hsave ▸ hnumbered name hname)
      · cases hsave
    · split at hruns
      · rcases mem_plannedRuns hruns with ⟨run, n, hn, heq⟩ | ⟨run, heq⟩
        · exact tree.original_of_mem h h hname hn run heq
        · exact not_numbered_iteration run (heq ▸ hnumbered name hname)
      · cases hruns

theorem disjoint_plannedChapter (s : Settings) (nbChaps : Nat) {a b : List ScriptFile} {i j : Nat}
    (ha : a ∈ tree.chapters) (hb : b ∈ tree.chapters) (hne : i ≠ j)
    (hdisjoint : List.Disjoint (a.map ScriptFile.name) (b.map ScriptFile.name)) :
    List.Disjoint (plannedChapter s nbChaps (a.map ScriptFile.name) i)
      (plannedChapter s nbChaps (b.map ScriptFile.name) j) := by
  have hnumbered := tree.numbered_of_mem ha
  have hnumbered' := tree.numbered_of_mem hb
  intro name hname hname'
  rcases mem_plannedChapter hname with hmem | ⟨hchap, rfl⟩ | ⟨hchap, hmade⟩
  · rcases mem_plannedChapter hname' with hmem' | ⟨_, rfl⟩ | ⟨_, hmade'⟩
    · exact hdisjoint hmem hmem'
    · exact not_numbered_saveCh5 (hnumbered _ hmem)
    · rcases hmade' with ⟨run, n, hn, heq⟩ | ⟨run, rfl⟩
      · exact tree.original_of_mem ha hb hmem hn run heq
      · exact not_numbered_iteration run (hnumbered _ hmem)
  · rcases mem_plannedChapter hname' with hmem' | ⟨hchap', _⟩ | ⟨_, hmade'⟩
    · exact not_numbered_saveCh5 (hnumbered' _ hmem')
    · exact hne (hchap.trans hchap'.symm)
    · rcases hmade' with ⟨run, n, hn, heq⟩ | ⟨run, heq⟩
      · exact not_numbered_saveCh5 (heq ▸ (hnumbered' n hn).append _)
      · exact iteration_ne_saveCh5 run heq.symm
  · rcases mem_plannedChapter hname' with hmem' | ⟨_, rfl⟩ | ⟨hchap', _⟩
    · rcases hmade with ⟨run, n, hn, heq⟩ | ⟨run, rfl⟩
      · exact tree.original_of_mem hb ha hmem' hn run heq
      · exact not_numbered_iteration run (hnumbered' _ hmem')
    · rcases hmade with ⟨run, n, hn, heq⟩ | ⟨run, heq⟩
      · exact not_numbered_saveCh5 (heq ▸ (hnumbered n hn).append _)
      · exact iteration_ne_saveCh5 run heq.symm
    · exact hne (hchap.trans hchap'.symm)

/-- **No target is planned twice.** Within a chapter the names are numbered, suffixed or made
up. Two chapters have disjoint names, and the copies of the one that is rebuilt have none of
them. -/
theorem nodup_planned (s : Settings) : (planned s tree.chapters).Nodup := by
  unfold planned
  rw [List.nodup_flatMap]
  constructor
  · rintro ⟨files, chap⟩ hmem
    exact tree.nodup_plannedChapter s tree.chapters.length chap (List.fst_mem_of_mem_zipIdx hmem)
  · rw [List.pairwise_iff_getElem]
    intro i j hi hj hij
    rw [List.length_zipIdx] at hi hj
    have hdisjoint := List.pairwise_iff_getElem.mp tree.nodup_names.2 i j hi hj hij
    show List.Disjoint (plannedChapter s _ ((tree.chapters.zipIdx 4)[i].1.map _) _)
      (plannedChapter s _ ((tree.chapters.zipIdx 4)[j].1.map _) _)
    rw [List.getElem_zipIdx, List.getElem_zipIdx]
    exact tree.disjoint_plannedChapter s _ (List.getElem_mem hi) (List.getElem_mem hj) (by omega)
      hdisjoint

theorem nodup_targets {job : Job} {w : Written} {left : Commands}
    (hpass : writeMakefile job (extracted tree.chapters) = some (w, left)) :
    (targets w.makefile).Nodup := by
  obtain ⟨written, hperm, hsub⟩ := targets_subperm_planned tree.nodup_names.1 hpass
  exact hperm.nodup_iff.mp ((tree.nodup_planned job.settings).sublist hsub)

end CommandTree

/-! ## One list for each target -/

/-- The lists in the order in which they are made. -/
def TargetList.all : List TargetList := [setupTgt, luserTgt, sudoTgt, chrootTgt, bootTgt]

theorem TargetList.mem_all (t : TargetList) : t ∈ all := by cases t <;> decide

theorem concatLists_eq_flatMap (lists : TargetList → List (List Char)) :
    concatLists lists = TargetList.all.flatMap lists := by
  unfold concatLists TargetList.all
  simp

/-- If all the lists together have no name twice, each name is in one of them. -/
theorem existsUnique_list {lists : TargetList → List (List Char)} (h : (concatLists lists).Nodup)
    {name : List Char} (hname : name ∈ concatLists lists) :
    ∃! t : TargetList, name ∈ lists t := by
  rw [concatLists_eq_flatMap] at h hname
  obtain ⟨t, -, ht⟩ := List.mem_flatMap.mp hname
  refine ⟨t, ht, fun u hu => ?_⟩
  by_contra hne
  have hsymm : Std.Symm (Function.onFun List.Disjoint lists) :=
    ⟨fun _ _ h => List.Disjoint.symm h⟩
  have hdisjoint := (List.nodup_flatMap.mp h).2.forall (TargetList.mem_all u)
    (TargetList.mem_all t) hne
  exact hdisjoint hu ht

/-- **The Makefile is one chain, cut into five lists**, and each target is in one of them, for a
book whose run ends, with the scripts that change the list in order. -/
theorem writeMakefile_chain (tree : CommandTree) (job : Job)
    (hends : Buildable job tree.chapters)
    (horder : inOrder .setupTgt (tree.chapters.flatMap scriptNames) = true)
    (hcompare : job.settings.compare = true →
      2 ≤ job.settings.iterations ∧ finalInChroot tree.chapters) :
    ∃ w left, writeMakefile job (extracted tree.chapters) = some (w, left) ∧
      Chained [] w.makefile.rules ∧ concatLists w.makefile.lists = targets w.makefile ∧
        ∀ name ∈ targets w.makefile, ∃! t : TargetList, name ∈ w.makefile.lists t := by
  have hdistinct := tree.nodup_names.1
  obtain ⟨⟨w, left⟩, hpass⟩ := Option.isSome_iff_exists.mp
    ((writeMakefile_isSome_iff job hdistinct).mpr hends)
  obtain ⟨hlinked, hfiled⟩ := writeMakefile_spec hpass hdistinct horder hcompare
  have hwritten : concatLists w.makefile.lists = targets w.makefile := by
    rw [hfiled.written, List.append_nil]
  refine ⟨w, left, hpass, hlinked.chain, hwritten, fun name hname => ?_⟩
  have hnodup := tree.nodup_targets hpass
  rw [← hwritten] at hname hnodup
  exact existsUnique_list hnodup hname

/-! ## The condition on the final system -/

/-- A script that unpacks the tarball of its page. -/
def package (name : String) : ScriptFile := ⟨name.toList, ["tar -xf ".toList ++ name.toList]⟩

def instructions (name : String) : ScriptFile := ⟨name.toList, []⟩

/-- Seven chapters. The final system has the scripts that its rebuild looks for. -/
def sevenChapters (final afterFinal : String) : List (List ScriptFile) :=
  [[instructions "401-settingenvironment"], [package "501-gcc"],
    [instructions "601-changingowner"], [instructions "701-creatingdirs"],
    [instructions final, package "802-bzip2", package "803-openssl",
      instructions "804-revisedchroot"],
    [instructions afterFinal], [package "1001-kernel"]]

/-- The network is configured after the final system. -/
def networkTree : CommandTree where
  chapters := sevenChapters "801-glibc" "901-network"
  numbered := by decide +kernel
  distinct := by decide +kernel
  original := original_of_notMem (by decide +kernel)

/-- The boot scripts are installed with the final system. -/
def bootTree : CommandTree where
  chapters := sevenChapters "801-bootscripts" "901-hosts"
  numbered := by decide +kernel
  distinct := by decide +kernel
  original := original_of_notMem (by decide +kernel)

/-- The final system is built twice and compared, and the tools are saved. -/
def compareTwice : Job := ⟨⟨false, true, false, true, true, 2⟩, 0, false, []⟩

theorem writeMakefile_chain_network :
    inOrder .setupTgt (networkTree.chapters.flatMap scriptNames) = true ∧
      ∃ w left, writeMakefile compareTwice (extracted networkTree.chapters) = some (w, left) ∧
        concatLists w.makefile.lists = targets w.makefile := by
  have horder : inOrder .setupTgt (networkTree.chapters.flatMap scriptNames) = true := by
    decide +kernel
  have hends : Buildable compareTwice networkTree.chapters :=
    (writeMakefile_isSome_iff compareTwice networkTree.nodup_names.1).mp (by decide +kernel)
  obtain ⟨w, left, hpass, -, hlists, -⟩ := writeMakefile_chain networkTree compareTwice hends horder
    fun _ => ⟨by decide, by unfold finalInChroot; decide +kernel⟩
  exact ⟨horder, w, left, hpass, hlists⟩

/-- The targets of the iterations come before the boot scripts in the lists. -/
theorem bootInFinalSystem_lists :
    inOrder .setupTgt (bootTree.chapters.flatMap scriptNames) = true ∧
      ∃ w left, writeMakefile compareTwice (extracted bootTree.chapters) = some (w, left) ∧
        concatLists w.makefile.lists ≠ targets w.makefile := by
  have hlists : (writeMakefile compareTwice (extracted bootTree.chapters)).any (fun x =>
      concatLists x.1.makefile.lists != targets x.1.makefile) = true := by
    decide +kernel
  refine ⟨by decide +kernel, ?_⟩
  obtain ⟨⟨w, left⟩, hw, hne⟩ := (Option.any_eq_true _ _).mp hlists
  exact ⟨w, left, hw, bne_iff_ne.mp hne⟩

end Jhalfs.Lfs
