import Jhalfs.Lfs.Passes

/-!
# Writing the Makefile a second time

With `REBUILD_MAKEFILE='y'` (jhalfs:378–505) the function `build_Makefile` runs again in the
directory of the commands as the last run left it. It counts the directories `chapter*` to
know the layout of the book (LFS/master.sh:254–255), and it has put the copies for the
rebuilds under such names. With a copy there the count is too high, the second run goes on to
a chapter that the book does not have, and `sed` does not find its scripts. Without copies
the second run sees the same names and writes the same Makefile.

- `Reruns`: the second run ends, and writes what the first one wrote.
- `ByName`: a pass reads the names in the directories and keeps them, so that on two trees with
  the same names (`Alike`) it ends on both or on none, with the same Makefile. This holds of each
  pass of a run without copies, and so of their composition (`reruns_of_no_copies`).
- A run with copies only adds directories (`Grows`), and none of them is a chapter. So there are
  more directories than chapters (`length_lt_of_copies`), and the second run comes to a chapter
  that is not there (`foldlM_chapterStep_none`).

**Main result**: `reruns_iff`. Of the runs that end, those without copies are repeated and no
others: the comparison is off, has one build, or the book has no chapter to compare.
-/

namespace Jhalfs.Lfs

open Text

/-- The second run ends and writes what the first one wrote. -/
def Reruns (job : Job) (c : Commands) : Prop :=
  ∃ w c₁ c₂, writeMakefile job c = some (w, c₁) ∧ writeMakefile job c₁ = some (w, c₂)

/-! ## Directories with the same names -/

/-- The two hold files of the same names. -/
def Alike (c d : Chapters) : Prop := namesOf c = namesOf d

theorem Alike.symm {c d : Chapters} (h : Alike c d) : Alike d c := Eq.symm h

theorem Alike.trans {c d e : Chapters} (h : Alike c d) (h' : Alike d e) : Alike c e :=
  Eq.trans h h'

theorem Alike.countChapters {c d : Chapters} (h : Alike c d) :
    countChapters c = countChapters d := by
  have hlen : c.length = d.length := by simpa [namesOf] using congrArg List.length h
  have hempty : c.isEmpty = d.isEmpty := by
    rw [Bool.eq_iff_iff, List.isEmpty_iff, List.isEmpty_iff, ← List.length_eq_zero_iff, hlen,
      List.length_eq_zero_iff]
  rw [Lfs.countChapters, Lfs.countChapters, hempty, hlen]

theorem Alike.lookup {c d : Chapters} (h : Alike c d) (dir : List Char) :
    (c.lookup dir).map (List.map ScriptFile.name) =
      (d.lookup dir).map (List.map ScriptFile.name) := by
  rw [← lookup_namesOf, ← lookup_namesOf, h]

theorem alike_editDir (c : Chapters) (dir : List Char) {edit : ScriptFile → ScriptFile}
    (hedit : ∀ file, (edit file).name = file.name) : Alike c (editDir c dir edit) :=
  (namesOf_editDir c dir hedit).symm

theorem Alike.editDir {c d : Chapters} (h : Alike c d) (dir : List Char)
    {edit : ScriptFile → ScriptFile} (hedit : ∀ file, (edit file).name = file.name) :
    Alike (Lfs.editDir c dir edit) (Lfs.editDir d dir edit) :=
  (alike_editDir c dir hedit).symm.trans (h.trans (alike_editDir d dir hedit))

/-! ## The first build reads the names alone -/

theorem addScript_name (s : Settings) (nbChaps chap : Nat) (m : Makefile) (sc : Script) :
    addScript s nbChaps chap false m sc = addScript s nbChaps chap false m ⟨sc.name, []⟩ := by
  simp [addScript]

theorem foldl_addScript_name (s : Settings) (nbChaps chap : Nat) (scripts : List Script)
    (m : Makefile) : scripts.foldl (addScript s nbChaps chap false) m =
      (scripts.map Script.name).foldl
        (fun m name => addScript s nbChaps chap false m ⟨name, []⟩) m := by
  rw [List.foldl_map]
  congr 1
  funext m sc
  exact addScript_name s nbChaps chap m sc

theorem firstBuild_congr {files files' : List ScriptFile}
    (h : files.map ScriptFile.name = files'.map ScriptFile.name) (s : Settings)
    (nbChaps chap : Nat) (m : Makefile) :
    firstBuild s nbChaps files chap m = firstBuild s nbChaps files' chap m := by
  have hnames : ∀ files : List ScriptFile, firstBuild s nbChaps files chap m =
      (sortByName id (files.map ScriptFile.name)).foldl
        (fun m name => addScript s nbChaps chap false m ⟨name, []⟩) m := by
    intro files
    show ((inNameOrder files).map ScriptFile.script).foldl (addScript s nbChaps chap false) m = _
    rw [foldl_addScript_name, List.map_map, ← names_inNameOrder]
    rfl
  rw [hnames, hnames, h]

/-! ## A run without copies -/

/-- A pass that reads the names alone, and keeps them: on directories with the same names it writes
the same rules, and leaves directories with the same names. -/
def ByName (pass : Makefile × Chapters → Option (Makefile × Chapters)) : Prop :=
  ∀ x y, pass x = some y → Alike x.2 y.2 ∧
    ∀ c, Alike x.2 c → ∃ c', pass (x.1, c) = some (y.1, c') ∧ Alike y.2 c'

theorem ByName.bind {pass pass' : Makefile × Chapters → Option (Makefile × Chapters)}
    (h : ByName pass) (h' : ByName pass') : ByName fun x => (pass x).bind pass' := by
  intro x z hz
  obtain ⟨y, hy, hyz⟩ := Option.bind_eq_some_iff.mp hz
  obtain ⟨hxy, hpass⟩ := h x y hy
  obtain ⟨hyz', hpass'⟩ := h' y z hyz
  refine ⟨hxy.trans hyz', fun c hc => ?_⟩
  obtain ⟨c', hc', halike⟩ := hpass c hc
  obtain ⟨c'', hc'', halike'⟩ := hpass' c' halike
  refine ⟨c'', ?_, halike'⟩
  dsimp only
  rw [hc', Option.bind_some, hc'']

/-- A pass that writes rules and looks at no directory. -/
theorem byName_some (f : Makefile → Makefile) : ByName fun x => some (f x.1, x.2) := by
  intro x y hy
  cases hy
  exact ⟨rfl, fun c hc => ⟨c, rfl, hc⟩⟩

theorem byName_foldlM {α : Type} {step : Makefile × Chapters → α → Option (Makefile × Chapters)}
    {items : List α} (h : ∀ a ∈ items, ByName fun x => step x a) :
    ByName fun x => items.foldlM step x := by
  induction items with
  | nil => exact byName_some id
  | cons a items ih =>
    have hbind := (h a List.mem_cons_self).bind (ih fun b hb => h b (List.mem_cons_of_mem _ hb))
    simp only [List.foldlM_cons]
    exact hbind

theorem byName_chapterPass (job : Job) (nbChaps chap : Nat) :
    ByName (chapterPass job nbChaps chap) := by
  intro x y hy
  unfold chapterPass at hy
  split at hy
  · cases hy
  · cases hy
  · next file files hfiles =>
    cases hy
    refine ⟨alike_editDir _ _ (name_fixLocales job), fun c hc => ?_⟩
    have hlookup := hc.lookup (chapterDir chap)
    rw [hfiles, Option.map_some] at hlookup
    obtain ⟨files', hfiles', hsame⟩ := Option.map_eq_some_iff.mp hlookup.symm
    cases files' with
    | nil => cases hsame
    | cons file' files' =>
      refine ⟨editDir c (chapterDir chap) (fixLocales job), ?_, hc.editDir _ (name_fixLocales job)⟩
      have hbuilt := firstBuild_congr ((names_fixLocales job (file' :: files')).trans
        (hsame.trans (names_fixLocales job (file :: files)).symm)) job.settings nbChaps chap x.1
      unfold chapterPass
      rw [hfiles']
      dsimp only
      rw [hbuilt]

theorem byName_keepUserPass (dir : List Char) :
    ByName fun x => (keepUserPass x.2 dir).map fun c => (x.1, c) := by
  have hany : ∀ files : List ScriptFile,
      (files.any fun file => contains file.name "revised".toList) =
        (files.map ScriptFile.name).any fun name => contains name "revised".toList := by
    intro files
    rw [List.any_map]
    rfl
  intro x y hy
  obtain ⟨c, hc, rfl⟩ := Option.map_eq_some_iff.mp hy
  unfold keepUserPass at hc
  split at hc
  · next hfind =>
    cases hc
    refine ⟨alike_editDir _ _ name_keepUser, fun d hd => ?_⟩
    -- the test reads the names of the directory, which are the same in both
    have hlookup : ((x.2.lookup dir).getD []).map ScriptFile.name =
        ((d.lookup dir).getD []).map ScriptFile.name := by
      have hsame := hd.lookup dir
      cases hx : x.2.lookup dir with
      | none =>
        rw [hx] at hsame
        rw [Option.map_eq_none_iff.mp hsame.symm]
      | some files =>
        rw [hx] at hsame
        obtain ⟨files', hfiles', heq⟩ := Option.map_eq_some_iff.mp hsame.symm
        rw [hfiles']
        exact heq.symm
    rw [hany, hlookup, ← hany] at hfind
    refine ⟨editDir d dir keepUser, ?_, hd.editDir dir name_keepUser⟩
    dsimp only
    rw [keepUserPass, if_pos hfind]
    rfl
  · cases hc

theorem foldlM_keepUserPass (dirs : List (List Char)) (x : Makefile × Chapters) :
    (dirs.foldlM keepUserPass x.2).map (fun c => (x.1, c)) =
      dirs.foldlM (fun x dir => (keepUserPass x.2 dir).map fun c => (x.1, c)) x := by
  induction dirs generalizing x with
  | nil => rfl
  | cons dir dirs ih =>
    rw [List.foldlM_cons, List.foldlM_cons]
    cases hdir : keepUserPass x.2 dir with
    | none => rfl
    | some c => exact ih (x.1, c)

/-- With at most one iteration nothing is rebuilt. -/
theorem byName_comparePass {job : Job} (hone : job.settings.iterations < 2) (nbChaps chap : Nat) :
    ByName (comparePass job nbChaps chap) := by
  have hkeep : ByName fun x => (userDirs job chap).foldlM
      (fun x dir => (keepUserPass x.2 dir).map fun c => (x.1, c)) x :=
    byName_foldlM fun dir _ => byName_keepUserPass dir
  have hwrite : ∃ f : Makefile → Makefile, ∀ x, comparePass job nbChaps chap x =
      (some (f x.1, x.2)).bind fun x => (userDirs job chap).foldlM
        (fun x dir => (keepUserPass x.2 dir).map fun c => (x.1, c)) x := by
    have hcases : job.settings.iterations = 0 ∨ job.settings.iterations = 1 := by omega
    rcases hcases with hzero | hone
    · refine ⟨id, fun x => ?_⟩
      rw [comparePass, hzero, Option.bind_some, ← foldlM_keepUserPass]
      rfl
    · refine ⟨fun m => m.wrtTarget (iteration 1) .compareWork, fun x => ?_⟩
      rw [comparePass, hone, Option.bind_some, ← foldlM_keepUserPass]
      rfl
  obtain ⟨f, hf⟩ := hwrite
  rw [funext hf]
  exact (byName_some f).bind hkeep

theorem byName_chapterStep {job : Job} {nbChaps chap : Nat}
    (hcopies : chap = 1 + nbChaps → job.settings.compare = true → job.settings.iterations < 2) :
    ByName fun x => chapterStep job nbChaps x chap := by
  refine (byName_chapterPass job nbChaps chap).bind ?_
  have hsave : ByName fun x => some (if chap = nbChaps ∧ job.settings.saveCh5 = true then
      (wrtSaveTarget x.1, x.2) else x) := by
    split
    · exact byName_some wrtSaveTarget
    · exact byName_some id
  have hcompare : ByName fun x => if chap = 1 + nbChaps ∧ job.settings.compare = true then
      comparePass job nbChaps chap x else some x := by
    split
    · next h => exact byName_comparePass (hcopies h.1 h.2) nbChaps chap
    · exact byName_some id
  exact hsave.bind hcompare

theorem customPass_again {job : Job} {m : Makefile} {c c₁ : Commands} {w : Written}
    (h : customPass job m c = some (w, c₁)) :
    c₁.chapters = c.chapters ∧ ∀ d : Chapters, ∃ c₂, customPass job m ⟨d, c₁.customTools⟩ =
      some (w, c₂) := by
  unfold customPass at h
  split at h
  · next hcustom =>
    dsimp only at h
    split at h
    · cases h
    · next htools =>
      cases h
      refine ⟨rfl, fun d => ?_⟩
      have hagain :
          ¬ (c.customTools ++ job.customCommands ++ job.customCommands).isEmpty = true := by
        rw [List.isEmpty_iff, List.append_eq_nil_iff, ← List.isEmpty_iff]
        exact fun h => htools h.1
      unfold customPass
      rw [if_pos hcustom, if_neg hagain]
      exact ⟨_, rfl⟩
  · next hcustom =>
    cases h
    refine ⟨rfl, fun d => ?_⟩
    unfold customPass
    rw [if_neg hcustom]
    exact ⟨_, rfl⟩

/-- A run that made no copies is repeated: it has kept the names, so the second run counts the same
chapters and reads the same names in them. -/
theorem reruns_of_no_copies {job : Job} {chapters : List (List ScriptFile)}
    (hrun : (writeMakefile job (extracted chapters)).isSome = true)
    (hcopies : ¬ (job.settings.compare = true ∧ 2 ≤ job.settings.iterations ∧
      3 ≤ chapters.length)) : Reruns job (extracted chapters) := by
  obtain ⟨⟨w, c₁⟩, hw⟩ := Option.isSome_iff_exists.mp hrun
  obtain ⟨x, hx, hcustom⟩ := Option.bind_eq_some_iff.mp hw
  have hcount := countChapters_extracted chapters
  generalize hnb : countChapters (extracted chapters).chapters = nbChaps at hx hcount
  have hname : ByName fun x => (List.range' 4 nbChaps).foldlM (chapterStep job nbChaps) x := by
    refine byName_foldlM fun chap hchap => byName_chapterStep fun hfinal hcompare => ?_
    rw [List.mem_range'_1] at hchap
    by_contra hmany
    exact hcopies ⟨hcompare, by omega, by omega⟩
  obtain ⟨halike, hpass⟩ := hname _ _ hx
  obtain ⟨c', hc', -⟩ := hpass x.2 halike
  have hfold : (List.range' 4 nbChaps).foldlM (chapterStep job nbChaps) (emptyMakefile, x.2) =
      some (x.1, c') := hc'
  obtain ⟨hleft, hagain⟩ := customPass_again hcustom
  have hchapters : c₁.chapters = x.2 := hleft
  obtain ⟨c₂, hc₂⟩ := hagain c'
  refine ⟨w, c₁, c₂, hw, ?_⟩
  have hsame : countChapters c₁.chapters = nbChaps := by
    rw [hchapters, ← hnb]
    exact halike.symm.countChapters
  rw [writeMakefile, hsame, hchapters, hfold, Option.bind_some, hc₂]

/-! ## A run with copies -/

theorem Grows.length_le {c c' : Chapters} (h : Grows c c') : c.length ≤ c'.length := by
  obtain ⟨made, heq, -⟩ := h
  have hlen := congrArg List.length heq
  simp only [namesOf, List.length_map, List.length_append] at hlen
  omega

section Copies

variable {job : Job} {nbChaps chap : Nat}

theorem length_systemBuildPass {run : Nat} {prevIt : List Char} {x y : Makefile × Chapters}
    (h : systemBuildPass job nbChaps chap run prevIt x = some y) :
    y.2.length = x.2.length + 1 := by
  obtain ⟨z, hz, rfl⟩ := Option.map_eq_some_iff.mp h
  obtain ⟨-, files, copies, -, -, rfl⟩ := rebuildPass_eq_some.mp hz
  simp

/-- The second iteration makes a copy. -/
theorem length_lt_comparePass {x y : Makefile × Chapters}
    (h : comparePass job nbChaps chap x = some y) (htwo : 2 ≤ job.settings.iterations) :
    x.2.length < y.2.length := by
  obtain ⟨z, hz, husers⟩ := Option.bind_eq_some_iff.mp h
  obtain ⟨c, hc, rfl⟩ := Option.map_eq_some_iff.mp husers
  have hkeep : Grows z.1.2 c := grows_foldlM id (fun _ _ _ => grows_keepUserPass) hc
  have hruns : List.range' 1 job.settings.iterations =
      1 :: 2 :: List.range' 3 (job.settings.iterations - 2) := by
    obtain ⟨k, hk⟩ := Nat.exists_eq_add_of_le htwo
    rw [hk, Nat.add_sub_cancel_left, Nat.add_comm, List.range'_succ, List.range'_succ]
  rw [hruns, List.foldlM_cons] at hz
  obtain ⟨u, hu, hz⟩ := Option.bind_eq_some_iff.mp hz
  rw [List.foldlM_cons] at hz
  obtain ⟨v, hv, hz⟩ := Option.bind_eq_some_iff.mp hz
  cases hu
  obtain ⟨t, ht, rfl⟩ := Option.map_eq_some_iff.mp hv
  rw [if_pos (by decide)] at ht
  have hcopy := length_systemBuildPass ht
  have hrest := (grows_iterations hz).length_le
  have hlast := hkeep.length_le
  dsimp only at hcopy hrest ⊢
  omega

theorem length_lt_chapterStep {x y : Makefile × Chapters}
    (h : chapterStep job nbChaps x chap = some y) (hchap : chap = 1 + nbChaps)
    (hcompare : job.settings.compare = true) (htwo : 2 ≤ job.settings.iterations) :
    x.2.length < y.2.length := by
  rw [chapterStep_eq] at h
  obtain ⟨z, hz, hrest⟩ := Option.bind_eq_some_iff.mp h
  dsimp only at hrest
  rw [if_pos ⟨hchap, hcompare⟩] at hrest
  have hlt := length_lt_comparePass hrest htwo
  exact (grows_chapterPass hz).length_le.trans_lt hlt

end Copies

/-! ## The missing chapter -/

/-- A chapter that is not there is not made. -/
theorem Grows.lookup_eq_none {c c' : Chapters} (h : Grows c c') {chap : Nat}
    (hnone : c.lookup (chapterDir chap) = none) : c'.lookup (chapterDir chap) = none := by
  rw [← Option.map_eq_none_iff, h.lookup chap, hnone, Option.map_none]

theorem grows_chapterSteps {job : Job} {nbChaps : Nat} {chaps : List Nat}
    {x y : Makefile × Chapters} (h : chaps.foldlM (chapterStep job nbChaps) x = some y) :
    Grows x.2 y.2 := grows_foldlM Prod.snd (fun _ _ _ h => grows_chapterStep h) h

/-- A run over too many chapters ends at the first one that is not there. -/
theorem foldlM_chapterStep_none {job : Job} {nbChaps chap : Nat} {chaps : List Nat}
    {x : Makefile × Chapters} (hchap : chap ∈ chaps)
    (hnone : x.2.lookup (chapterDir chap) = none) :
    chaps.foldlM (chapterStep job nbChaps) x = none := by
  obtain ⟨before, after, rfl⟩ := List.append_of_mem hchap
  rw [List.foldlM_append]
  cases hbefore : before.foldlM (chapterStep job nbChaps) x with
  | none => rfl
  | some y =>
    have hmissing : chapterPass job nbChaps chap y = none := by
      rw [chapterPass, (grows_chapterSteps hbefore).lookup_eq_none hnone]
    show (after.foldlM _ =<< chapterStep job nbChaps y chap) = none
    rw [chapterStep, hmissing]
    rfl

/-- The copies of the final system are counted as chapters. -/
theorem length_lt_of_copies {job : Job} {nbChaps : Nat} {x y : Makefile × Chapters}
    (hcompare : job.settings.compare = true) (htwo : 2 ≤ job.settings.iterations)
    (hthree : 3 ≤ nbChaps)
    (h : (List.range' 4 nbChaps).foldlM (chapterStep job nbChaps) x = some y) :
    x.2.length < y.2.length := by
  have hfinal : 1 + nbChaps ∈ List.range' 4 nbChaps := by
    rw [List.mem_range'_1]
    omega
  obtain ⟨before, after, hsplit⟩ := List.append_of_mem hfinal
  rw [hsplit, List.foldlM_append] at h
  obtain ⟨u, hu, hrest⟩ := Option.bind_eq_some_iff.mp h
  rw [List.foldlM_cons] at hrest
  obtain ⟨v, hv, hafter⟩ := Option.bind_eq_some_iff.mp hrest
  calc x.2.length ≤ u.2.length := (grows_chapterSteps hu).length_le
    _ < v.2.length := length_lt_chapterStep hv rfl hcompare htwo
    _ ≤ y.2.length := (grows_chapterSteps hafter).length_le

/-- A run that made copies is not repeated: the second run counts the copies as chapters, and looks
for a chapter behind the last one. -/
theorem not_reruns_of_copies {job : Job} {chapters : List (List ScriptFile)}
    (hcompare : job.settings.compare = true) (htwo : 2 ≤ job.settings.iterations)
    (hthree : 3 ≤ chapters.length) : ¬ Reruns job (extracted chapters) := by
  rintro ⟨w, c₁, c₂, hw, hagain⟩
  obtain ⟨x, hx, hcustom⟩ := Option.bind_eq_some_iff.mp hw
  have hchapters : c₁.chapters = x.2 := (customPass_again hcustom).1
  have hcount : countChapters (extracted chapters).chapters = chapters.length := by
    rw [countChapters_extracted]
    omega
  have hlen : (extracted chapters).chapters.length = chapters.length := by simp [extracted]
  rw [hcount] at hx
  have hmore := length_lt_of_copies hcompare htwo hthree hx
  dsimp only at hmore
  have hcount' : countChapters x.2 = x.2.length := by
    rw [countChapters, if_neg]
    rw [List.isEmpty_iff_length_eq_zero]
    omega
  have hchap : 4 + chapters.length ∈ List.range' 4 x.2.length := by
    rw [List.mem_range'_1]
    omega
  have hmissing : (extracted chapters).chapters.lookup (chapterDir (4 + chapters.length)) =
      none := by
    rw [lookup_extracted, List.getElem?_eq_none (Nat.le_refl _)]
  have hnone : (List.range' 4 x.2.length).foldlM (chapterStep job x.2.length)
      (emptyMakefile, x.2) = none :=
    foldlM_chapterStep_none hchap ((grows_chapterSteps hx).lookup_eq_none hmissing)
  rw [writeMakefile, hchapters, hcount', hnone] at hagain
  cases hagain

/-- **Which runs are repeated**, of those that end: the ones without a comparison of two builds, or
with a book of less than three chapters. -/
theorem reruns_iff (job : Job) (chapters : List (List ScriptFile))
    (h : (writeMakefile job (extracted chapters)).isSome = true) :
    Reruns job (extracted chapters) ↔
      ¬ (job.settings.compare = true ∧ 2 ≤ job.settings.iterations ∧ 3 ≤ chapters.length) :=
  ⟨fun hreruns hcopies => not_reruns_of_copies hcopies.1 hcopies.2.1 hcopies.2.2 hreruns,
    reruns_of_no_copies h⟩

/-- A book of five chapters. -/
def classicalBook : List (List ScriptFile) :=
  [[⟨"401-settingenvironment".toList, []⟩],
    [⟨"501-changingowner".toList, []⟩],
    [⟨"601-creatingdirs".toList, []⟩, ⟨"602-bzip2".toList, ["tar -xf bzip2-1.0.8.tar.gz".toList]⟩,
      ⟨"603-openssl".toList, ["tar -xf openssl-1.1.1d.tar.gz".toList]⟩,
      ⟨"604-revisedchroot".toList, []⟩],
    [⟨"701-bootscripts".toList, []⟩], [⟨"801-fstab".toList, []⟩]]

/-- A build with custom tools, compared with `iterations` builds. -/
def comparing (iterations : Nat) : Job :=
  ⟨⟨true, true, false, false, true, iterations⟩, 1, true, ["950-glib".toList]⟩

theorem comparing_once_reruns : Reruns (comparing 1) (extracted classicalBook) :=
  (reruns_iff (comparing 1) classicalBook (by decide)).mpr (by decide)

theorem comparing_twice_not_reruns :
    (writeMakefile (comparing 2) (extracted classicalBook)).isSome = true ∧
      ¬ Reruns (comparing 2) (extracted classicalBook) :=
  ⟨by decide, not_reruns_of_copies rfl (by decide) (by decide)⟩

end Jhalfs.Lfs
