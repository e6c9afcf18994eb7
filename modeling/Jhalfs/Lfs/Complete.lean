import Mathlib.Data.Finset.Max
import Jhalfs.Lfs.Passes

/-!
# Which runs come to their end

`jhalfs` runs with `set -e`, so `build_Makefile` writes a Makefile only if every program on the
way finds its files. Nothing is assumed of a run here; the books for which it ends are
described by their names.

- `Comparable`: the chapter of the final system can be compared. It has a revised page, and
  the scripts `*-bzip2` and `*-openssl` get a copy in each rebuild.
- `Buildable`: no chapter is empty, the final system can be compared if it is to be, and there
  are custom commands if they are asked for.
- `Copied`: behind the first `k` iterations the directory of the chapter is as it was, and the
  directories of its copies are those of the rebuilds up to `k`. Each iteration takes this from
  `k` to `k + 1` (`Copied.iterationPass`), so that the next rebuild finds its directory free.

A revised page has a copy that is a revised page, too: the longest name of such a page is not
taken by another copy (`exists_revised_copy`). So a chapter that has one has it in all copies,
and the `sed` behind the comparison finds a file in each directory.

**Main results**: `comparePass_isSome_iff` and `chapterStep_isSome_iff` say when a comparison
and a chapter come to their end, and `writeMakefile_isSome_iff` says it of a whole run.
-/

namespace Jhalfs.Lfs

open Text

/-! ## The scripts that a comparison looks for -/

/-- The chapter of the final system can be compared: the three `sed` find their scripts. -/
structure Comparable (s : Settings) (names : List (List Char)) : Prop where
  revised : ∃ name ∈ names, contains name "revised".toList = true
  copied : ∀ run, 2 ≤ run → run ≤ s.iterations → ∀ w ∈ ["-bzip2", "-openssl"],
    ∃ name ∈ names, endsWith w name = true ∧ name ++ buildSuffix run ∉ names

/-- The longest name of a revised page has a copy. -/
theorem exists_revised_copy {names : List (List Char)}
    (h : ∃ name ∈ names, contains name "revised".toList = true) (run : Nat) :
    ∃ name ∈ names, contains (name ++ buildSuffix run) "revised".toList = true ∧
      name ++ buildSuffix run ∉ names := by
  obtain ⟨name, hname, hrevised⟩ := h
  obtain ⟨longest, hlongest, hmax⟩ := Finset.exists_max_image
    (names.toFinset.filter fun name => contains name "revised".toList = true) List.length
    ⟨name, Finset.mem_filter.mpr ⟨List.mem_toFinset.mpr hname, hrevised⟩⟩
  rw [Finset.mem_filter, List.mem_toFinset] at hlongest
  have hcopy : contains (longest ++ buildSuffix run) "revised".toList = true :=
    contains_mono hlongest.2 (List.prefix_append _ _).isInfix
  refine ⟨longest, hlongest.1, hcopy, fun hmem => ?_⟩
  have hle := hmax (longest ++ buildSuffix run)
    (Finset.mem_filter.mpr ⟨List.mem_toFinset.mpr hmem, hcopy⟩)
  have hpos := List.length_pos_iff.mpr (buildSuffix_ne_nil run)
  rw [List.length_append] at hle
  omega

theorem copyDir_injective {chap i j : Nat} (h : copyDir chap i = copyDir chap j) : i = j :=
  buildSuffix_injective (List.append_cancel_left h)

/-- The chapter is as it was, and the rebuilds up to `k` have made their copies of it. -/
structure Copied (files : List ScriptFile) (chap k : Nat) (c : Chapters) : Prop where
  scripts : c.lookup (chapterDir chap) = some files
  copies : ∀ run, c.lookup (copyDir chap run) =
    if 2 ≤ run ∧ run ≤ k then copyChapter run files else none

theorem Copied.mono {files : List ScriptFile} {chap i j : Nat} {c : Chapters}
    (h : Copied files chap i c) (hij : ∀ run, 2 ≤ run → (run ≤ i ↔ run ≤ j)) :
    Copied files chap j c := by
  refine ⟨h.scripts, fun run => (h.copies run).trans (if_congr ?_ rfl rfl)⟩
  exact and_congr_right fun htwo => hij run htwo

section Passes

variable (job : Job) (nbChaps : Nat) {chap : Nat} {files : List ScriptFile}

/-- A rebuild ends if the chapter can be copied, and adds the copies. -/
theorem Copied.rebuildPass {k : Nat} {x : Makefile × Chapters} (h : Copied files chap (k + 1) x.2) :
    ((rebuildPass job nbChaps chap (k + 2) x).isSome = true ↔
        (copyChapter (k + 2) files).isSome = true) ∧
      ∀ y, rebuildPass job nbChaps chap (k + 2) x = some y → Copied files chap (k + 2) y.2 := by
  have hfree : x.2.lookup (copyDir chap (k + 2)) = none := by
    have hcopies := h.copies (k + 2)
    rwa [if_neg (by omega)] at hcopies
  constructor
  · rw [Lfs.rebuildPass, hfree, h.scripts, Option.isSome_none, if_neg Bool.false_ne_true,
      Option.bind_some, Option.isSome_map]
  · intro y hy
    obtain ⟨-, files', copies, hfiles', hcopies, rfl⟩ := rebuildPass_eq_some.mp hy
    rw [h.scripts, Option.some.injEq] at hfiles'
    subst hfiles'
    constructor
    · show (x.2 ++ _).lookup _ = _
      rw [List.lookup_append, h.scripts, Option.some_or]
    · intro run
      show (x.2 ++ [(copyDir chap (k + 2), copies)]).lookup _ = _
      rw [List.lookup_append, h.copies, List.lookup_cons, List.lookup_nil]
      by_cases hrun : run = k + 2
      · rw [hrun, if_neg (by omega), if_pos (by omega), beq_self_eq_true, hcopies]
        rfl
      · have hne : (copyDir chap run == copyDir chap (k + 2)) = false :=
          beq_eq_false_iff_ne.mpr fun heq => hrun (copyDir_injective heq)
        rw [hne, Option.or_none]
        exact if_congr (and_congr_right fun _ => by omega) rfl rfl

theorem Copied.iterationPass {k : Nat} {x : (Makefile × Chapters) × List Char}
    (h : Copied files chap k x.1.2) :
    ((iterationPass job nbChaps chap x (k + 1)).isSome = true ↔
        (2 ≤ k + 1 → (copyChapter (k + 1) files).isSome = true)) ∧
      ∀ y, iterationPass job nbChaps chap x (k + 1) = some y →
        Copied files chap (k + 1) y.1.2 := by
  cases k with
  | zero =>
    refine ⟨iff_of_true rfl fun h => absurd h (by decide), fun y hy => ?_⟩
    cases hy
    exact h.mono fun run hrun => by omega
  | succ k =>
    obtain ⟨hends, hcopied⟩ := h.rebuildPass job nbChaps
    have hnot : k + 1 + 1 ≠ 1 := by omega
    constructor
    · rw [Lfs.iterationPass, if_pos hnot, Option.isSome_map, systemBuildPass, Option.isSome_map,
        hends]
      exact (imp_iff_right (by omega)).symm
    · intro y hy
      obtain ⟨z, hz, rfl⟩ := Option.map_eq_some_iff.mp hy
      rw [if_pos hnot] at hz
      obtain ⟨u, hu, rfl⟩ := Option.map_eq_some_iff.mp hz
      exact hcopied u hu

theorem Copied.iterations {n k : Nat} {x : (Makefile × Chapters) × List Char}
    (h : Copied files chap k x.1.2) :
    (((List.range' (k + 1) n).foldlM (Lfs.iterationPass job nbChaps chap) x).isSome = true ↔
        ∀ run, 2 ≤ run → k < run → run ≤ k + n → (copyChapter run files).isSome = true) ∧
      ∀ y, (List.range' (k + 1) n).foldlM (Lfs.iterationPass job nbChaps chap) x = some y →
        Copied files chap (k + n) y.1.2 := by
  induction n generalizing k x with
  | zero =>
    refine ⟨iff_of_true rfl fun run _ hlt hle => by omega, fun y hy => ?_⟩
    cases hy
    exact h
  | succ n ih =>
    obtain ⟨hends, hcopied⟩ := h.iterationPass job nbChaps
    rw [List.range'_succ, List.foldlM_cons]
    cases hstep : Lfs.iterationPass job nbChaps chap x (k + 1) with
    | none =>
      rw [hstep] at hends
      refine ⟨iff_of_false Bool.false_ne_true fun hall => ?_, fun y hy => by cases hy⟩
      exact Bool.false_ne_true (hends.mpr fun htwo => hall _ htwo (by omega) (by omega))
    | some z =>
      obtain ⟨hrest, hrestcopied⟩ := ih (hcopied z hstep)
      rw [hstep] at hends
      have hfirst := hends.mp rfl
      constructor
      · show ((List.range' (k + 1 + 1) n).foldlM (Lfs.iterationPass job nbChaps chap) z).isSome =
          true ↔ _
        rw [hrest]
        constructor
        · intro hall run htwo hlt hle
          by_cases hrun : run = k + 1
          · subst hrun
            exact hfirst htwo
          · exact hall run htwo (by omega) (by omega)
        · exact fun hall run htwo hlt hle => hall run htwo (by omega) (by omega)
      · intro y hy
        have hlast := hrestcopied y hy
        rwa [Nat.add_right_comm] at hlast

end Passes

/-- The directory has a script `*revised*`. -/
def HasRevised (c : Chapters) (dir : List Char) : Prop :=
  ∃ names, (c.lookup dir).map (List.map ScriptFile.name) = some names ∧
    ∃ name ∈ names, contains name "revised".toList = true

theorem keepUserPass_isSome_iff (c : Chapters) (dir : List Char) :
    (keepUserPass c dir).isSome = true ↔ HasRevised c dir := by
  have hany : ∀ files : List ScriptFile,
      (files.any fun file => contains file.name "revised".toList) = true ↔
        ∃ name ∈ files.map ScriptFile.name, contains name "revised".toList = true := by
    intro files
    rw [List.any_eq_true]
    simp only [List.mem_map, exists_exists_and_eq_and]
  have hends : (keepUserPass c dir).isSome = true ↔
      (((c.lookup dir).getD []).any fun file => contains file.name "revised".toList) = true := by
    unfold keepUserPass
    split
    · next h => exact iff_of_true rfl h
    · next h => exact iff_of_false Bool.false_ne_true h
  rw [hends, hany]
  unfold HasRevised
  cases c.lookup dir with
  | none =>
    refine iff_of_false ?_ ?_
    · rintro ⟨name, hname, -⟩
      cases hname
    · rintro ⟨names, hnames, -⟩
      cases hnames
  | some files =>
    constructor
    · exact fun h => ⟨_, rfl, h⟩
    · rintro ⟨names, hnames, h⟩
      exact Option.some.inj hnames ▸ h

theorem keepUserPasses_isSome_iff (dirs : List (List Char)) (c : Chapters) :
    (dirs.foldlM keepUserPass c).isSome = true ↔ ∀ dir ∈ dirs, HasRevised c dir := by
  induction dirs generalizing c with
  | nil => exact iff_of_true rfl fun _ h => absurd h List.not_mem_nil
  | cons dir dirs ih =>
    rw [List.foldlM_cons, List.forall_mem_cons, ← keepUserPass_isSome_iff c dir]
    cases hstep : keepUserPass c dir with
    | none => exact iff_of_false Bool.false_ne_true fun h => Bool.false_ne_true h.1
    | some d =>
      show (dirs.foldlM keepUserPass d).isSome = true ↔ _
      rw [ih, Option.isSome_some, eq_self, true_and]
      have hsame : ∀ dir', HasRevised d dir' ↔ HasRevised c dir' := by
        intro dir'
        unfold keepUserPass at hstep
        split at hstep
        · cases hstep
          unfold HasRevised
          rw [← lookup_namesOf, ← lookup_namesOf, namesOf_editDir c dir name_keepUser]
        · cases hstep
      exact forall₂_congr fun dir' _ => hsame dir'

section Passes

variable (job : Job) (nbChaps : Nat) {chap : Nat} {files : List ScriptFile}

/-- **When a comparison comes to its end.** The iterations need the copies of the two packages, and
the edit behind them needs a revised page in the chapter and in its copies. -/
theorem comparePass_isSome_iff (hdistinct : (files.map ScriptFile.name).Nodup)
    {x : Makefile × Chapters} (h : Copied files chap 0 x.2) :
    (comparePass job nbChaps chap x).isSome = true ↔
      Comparable job.settings (files.map ScriptFile.name) := by
  obtain ⟨hends, hcopied⟩ : (((List.range' 1 job.settings.iterations).foldlM
      (iterationPass job nbChaps chap) (x, [])).isSome = true ↔
        ∀ run, 2 ≤ run → 0 < run → run ≤ 0 + job.settings.iterations →
          (copyChapter run files).isSome = true) ∧ _ :=
    Copied.iterations job nbChaps (k := 0) (x := (x, [])) h
  have hcopies : ∀ run, (copyChapter run files).isSome = true ↔ ∀ w ∈ ["-bzip2", "-openssl"],
      ∃ name ∈ files.map ScriptFile.name, endsWith w name = true ∧
        name ++ buildSuffix run ∉ files.map ScriptFile.name := fun run =>
    copyChapter_isSome hdistinct
  rw [Nat.zero_add] at hends hcopied
  unfold comparePass
  cases hiter : (List.range' 1 job.settings.iterations).foldlM
      (iterationPass job nbChaps chap) (x, []) with
  | none =>
    rw [hiter] at hends
    refine iff_of_false Bool.false_ne_true fun hcomparable => ?_
    exact Bool.false_ne_true (hends.mpr fun run htwo _ hle =>
      (hcopies run).mpr (hcomparable.copied run htwo hle))
  | some y =>
    rw [hiter] at hends
    have hall := hends.mp rfl
    have hdirs := hcopied y hiter
    rw [Option.bind_some, Option.isSome_map, keepUserPasses_isSome_iff]
    constructor
    · intro husers
      obtain ⟨names, hnames, hrevised⟩ := husers (chapterDir chap) List.mem_cons_self
      rw [hdirs.scripts, Option.map_some, Option.some.injEq] at hnames
      exact ⟨hnames ▸ hrevised, fun run htwo hle =>
        (hcopies run).mp (hall run htwo (by omega) hle)⟩
    · intro hcomparable dir hdir
      rcases List.mem_cons.mp hdir with rfl | hdir
      · exact ⟨_, congrArg _ hdirs.scripts, hcomparable.revised⟩
      · obtain ⟨run, hrun, rfl⟩ := List.mem_map.mp hdir
        rw [List.mem_range'_1] at hrun
        obtain ⟨copies, hcopy⟩ := Option.isSome_iff_exists.mp
          (hall run hrun.1 (by omega) (by omega))
        have hlookup := hdirs.copies run
        rw [if_pos (by omega), hcopy] at hlookup
        refine ⟨_, congrArg _ hlookup, ?_⟩
        obtain ⟨name, hname, hrevised, hfree⟩ := exists_revised_copy hcomparable.revised run
        obtain ⟨file, hfile, rfl⟩ := List.mem_map.mp hname
        exact ⟨_, ((copies_spec hdistinct hcopy).names _).mpr ⟨file, hfile, rfl, hfree⟩, hrevised⟩

/-- **When a chapter comes to its end.** It has scripts, and if it is the final system that is to be
compared, it can be compared. -/
theorem chapterStep_isSome_iff (hdistinct : (files.map ScriptFile.name).Nodup)
    {x : Makefile × Chapters} (hfiles : x.2.lookup (chapterDir chap) = some files)
    (hfree : chap = 1 + nbChaps → ∀ run, x.2.lookup (copyDir chap run) = none) :
    (chapterStep job nbChaps x chap).isSome = true ↔
      files ≠ [] ∧ (chap = 1 + nbChaps → job.settings.compare = true →
        Comparable job.settings (files.map ScriptFile.name)) := by
  rw [chapterStep_eq]
  cases hpass : chapterPass job nbChaps chap x with
  | none =>
    refine iff_of_false Bool.false_ne_true fun h => ?_
    rw [chapterPass_eq_some.mpr ⟨files, h.1, hfiles, rfl⟩] at hpass
    cases hpass
  | some y =>
    obtain ⟨found, hne, hfound, rfl⟩ := chapterPass_eq_some.mp hpass
    rw [hfiles, Option.some.injEq] at hfound
    subst hfound
    rw [Option.bind_some, and_iff_right hne]
    dsimp only
    split
    · next hfinal =>
      have hcopied : Copied (files.map (fixLocales job)) chap 0
          (editDir x.2 (chapterDir chap) (fixLocales job)) := by
        refine ⟨?_, fun run => ?_⟩
        · rw [lookup_editDir, if_pos rfl, hfiles, Option.map_some]
        · rw [lookup_editDir, if_neg (chapterDir_ne_copyDir chap chap run).symm, hfree hfinal.1,
            if_neg (by omega)]
      have hnames := names_fixLocales job files
      rw [comparePass_isSome_iff job nbChaps (hnames ▸ hdistinct) hcopied, hnames]
      exact ⟨fun h _ _ => h, fun h => h hfinal.1 hfinal.2⟩
    · next hfinal =>
      exact iff_of_true rfl fun hchap hcompare => absurd ⟨hchap, hcompare⟩ hfinal

end Passes

/-! ## The whole run -/

/-- The scripts of a book from which a Makefile is written. -/
structure Buildable (job : Job) (chapters : List (List ScriptFile)) : Prop where
  scripts : chapters ≠ [] ∧ ∀ files ∈ chapters, files ≠ []
  compared : job.settings.compare = true → 3 ≤ chapters.length →
    ∀ files, chapters[chapters.length - 3]? = some files →
      Comparable job.settings (files.map ScriptFile.name)
  customTools : job.customTools = true → job.customCommands ≠ []

/-- The copies are made in the chapter of the final system alone. -/
theorem lookup_copyDir_chapterStep {job : Job} {nbChaps chap i : Nat} {x y : Makefile × Chapters}
    (h : chapterStep job nbChaps x chap = some y) (hchap : chap ≠ 1 + nbChaps) (run : Nat) :
    y.2.lookup (copyDir i run) = x.2.lookup (copyDir i run) := by
  rw [chapterStep_eq] at h
  obtain ⟨z, hz, hrest⟩ := Option.bind_eq_some_iff.mp h
  obtain ⟨files, -, -, rfl⟩ := chapterPass_eq_some.mp hz
  dsimp only at hrest
  rw [if_neg fun hfinal => hchap hfinal.1] at hrest
  cases hrest
  show (editDir x.2 (chapterDir chap) (fixLocales job)).lookup _ = _
  rw [lookup_editDir, if_neg (chapterDir_ne_copyDir chap i run).symm]

theorem chapterSteps_isSome_iff {job : Job} {nbChaps chap : Nat} {chapters : List (List ScriptFile)}
    (hdistinct : ∀ files ∈ chapters, (files.map ScriptFile.name).Nodup) {x : Makefile × Chapters}
    (hlookup : ∀ i, (x.2.lookup (chapterDir (chap + i))).map (List.map ScriptFile.name) =
      chapters[i]?.map (List.map ScriptFile.name))
    (hfree : chap ≤ 1 + nbChaps → ∀ run, x.2.lookup (copyDir (1 + nbChaps) run) = none) :
    ((List.range' chap chapters.length).foldlM (chapterStep job nbChaps) x).isSome = true ↔
      ∀ i files, chapters[i]? = some files → files ≠ [] ∧
        (chap + i = 1 + nbChaps → job.settings.compare = true →
          Comparable job.settings (files.map ScriptFile.name)) := by
  induction chapters generalizing chap x with
  | nil => exact iff_of_true rfl fun i files h => by cases h
  | cons files chapters ih =>
    obtain ⟨found, hfound, hnames⟩ := Option.map_eq_some_iff.mp (hlookup 0)
    have hempty : found ≠ [] ↔ files ≠ [] := by
      rw [ne_eq, ne_eq, ← List.map_eq_nil_iff, hnames, List.map_eq_nil_iff]
    have hstep := chapterStep_isSome_iff job nbChaps
      (hnames ▸ hdistinct files List.mem_cons_self) hfound
      fun hchap => hchap ▸ hfree (Nat.le_of_eq hchap)
    rw [hnames, hempty, Nat.add_zero] at hstep
    rw [List.length_cons, List.range'_succ, List.foldlM_cons]
    cases hpass : chapterStep job nbChaps x chap with
    | none =>
      rw [hpass] at hstep
      exact iff_of_false Bool.false_ne_true fun hall =>
        Bool.false_ne_true (hstep.mpr (hall 0 files rfl))
    | some y =>
      rw [hpass] at hstep
      have hlookup' : ∀ i, (y.2.lookup (chapterDir (chap + 1 + i))).map (List.map ScriptFile.name) =
          chapters[i]?.map (List.map ScriptFile.name) := by
        intro i
        rw [(grows_chapterStep hpass).lookup, Nat.add_assoc, Nat.add_comm 1 i, hlookup (i + 1),
          List.getElem?_cons_succ]
      have hfree' : chap + 1 ≤ 1 + nbChaps →
          ∀ run, y.2.lookup (copyDir (1 + nbChaps) run) = none := by
        intro hle run
        rw [lookup_copyDir_chapterStep hpass (by omega)]
        exact hfree (by omega) run
      show ((List.range' (chap + 1) chapters.length).foldlM (chapterStep job nbChaps) y).isSome =
        true ↔ _
      rw [ih (fun files' h => hdistinct files' (List.mem_cons_of_mem _ h)) hlookup' hfree']
      constructor
      · intro hall i files' hfiles'
        cases i with
        | zero =>
          cases hfiles'
          exact hstep.mp rfl
        | succ i =>
          rw [List.getElem?_cons_succ] at hfiles'
          have hlater := hall i files' hfiles'
          rwa [Nat.add_assoc, Nat.add_comm 1 i] at hlater
      · intro hall i files' hfiles'
        have hlater := hall (i + 1) files' (List.getElem?_cons_succ.trans hfiles')
        rwa [Nat.add_assoc, Nat.add_comm 1 i]

theorem customPass_isSome_iff (job : Job) (m : Makefile) (c : Chapters) :
    (customPass job m ⟨c, []⟩).isSome = true ↔
      (job.customTools = true → job.customCommands ≠ []) := by
  unfold customPass
  split
  · next hcustom =>
    rw [List.nil_append]
    cases job.customCommands with
    | nil => simp [hcustom]
    | cons name names => simp
  · next hcustom => exact iff_of_true rfl fun h => absurd h hcustom

/-- **When a Makefile is written.** By induction on the chapters; the directories of the copies are
free until the chapter of the final system is reached. -/
theorem writeMakefile_isSome_iff (job : Job) {chapters : List (List ScriptFile)}
    (hdistinct : ∀ files ∈ chapters, (files.map ScriptFile.name).Nodup) :
    (writeMakefile job (extracted chapters)).isSome = true ↔ Buildable job chapters := by
  have hfree : ∀ run, (extracted chapters).chapters.lookup (copyDir (1 + chapters.length) run) =
      none := by
    intro run
    rw [List.lookup_eq_none_iff]
    intro d hd
    obtain ⟨x, -, rfl⟩ := List.mem_map.mp hd
    exact bne_iff_ne.mpr (chapterDir_ne_copyDir x.2 _ run).symm
  by_cases hnil : chapters = []
  · subst hnil
    exact iff_of_false Bool.false_ne_true fun h => h.scripts.1 rfl
  have hcount : countChapters (extracted chapters).chapters = chapters.length := by
    rw [countChapters_extracted]
    exact Nat.max_eq_right (List.length_pos_iff.mpr hnil)
  have hloop : ((List.range' 4 chapters.length).foldlM (chapterStep job chapters.length)
      (emptyMakefile, (extracted chapters).chapters)).isSome = true ↔
        ∀ i files, chapters[i]? = some files → files ≠ [] ∧
          (4 + i = 1 + chapters.length → job.settings.compare = true →
            Comparable job.settings (files.map ScriptFile.name)) :=
    chapterSteps_isSome_iff hdistinct (fun i => by rw [lookup_extracted]) fun _ => hfree
  have hends : (writeMakefile job (extracted chapters)).isSome = true ↔
      ((List.range' 4 chapters.length).foldlM (chapterStep job chapters.length)
        (emptyMakefile, (extracted chapters).chapters)).isSome = true ∧
          (job.customTools = true → job.customCommands ≠ []) := by
    rw [writeMakefile, hcount]
    cases hfold : (List.range' 4 chapters.length).foldlM (chapterStep job chapters.length)
        (emptyMakefile, (extracted chapters).chapters) with
    | none => exact iff_of_false Bool.false_ne_true fun h => Bool.false_ne_true h.1
    | some x =>
      rw [Option.bind_some, Option.isSome_some, eq_self, true_and]
      exact customPass_isSome_iff job x.1 x.2
  rw [hends, hloop]
  constructor
  · rintro ⟨hall, hcustom⟩
    refine ⟨⟨hnil, fun files hfiles => ?_⟩, fun hcompare hthree files hfiles => ?_, hcustom⟩
    · obtain ⟨i, hi⟩ := List.mem_iff_getElem?.mp hfiles
      exact (hall i files hi).1
    · exact (hall _ files hfiles).2 (by omega) hcompare
  · rintro ⟨hscripts, hcompared, hcustom⟩
    refine ⟨fun i files hfiles => ⟨hscripts.2 files (List.mem_of_getElem? hfiles), ?_⟩, hcustom⟩
    intro hfinal hcompare
    have hi : i = chapters.length - 3 := by omega
    exact hcompared hcompare (by omega) files (hi ▸ hfiles)

end Jhalfs.Lfs
