import Jhalfs.Lfs.Passes

/-!
# One chain, cut into five lists

The rules of the Makefile form a chain, and the five lists, one after the other, are its
targets in order (`writeMakefile_spec`). This needs the scripts that change the list to
stand in order (`inOrder`). It also needs the final system to be built in the chroot when it
is compared (`finalInChroot`): the targets of the comparison are put in the chroot's list
whatever the current list is.

The invariant has two halves. `Linked` says that the rules are a chain that ends with
`PREV`. `Filed` says that what has been written is what the lists hold, but for some
targets that are filed later, and that the lists after the current one are empty; so a
target that is put at the end of the current list is put at the end of all of them. Between
two iterations the target of the last one is pending: `wrt_system_build` files it with the
next rebuild, so that the list has the rebuilt targets behind it (`Compared`).

The passes are followed from the bottom up. Each step lemma is about a pass that ends; nothing
is said about a run that does not.

- One script, and the scripts of a directory: `addScript_spec`, `firstBuild_spec`.
- A rebuild, which collects its targets in the local list: `Rebuilding`, `copiesTargets_spec`.
- An iteration, and all of them by induction on their number: `Compared.step`,
  `Compared.iterations`, `comparePass_spec`.
- A chapter, and all of them by induction: `chapterStep_spec`, `chapterSteps_spec`.
-/

namespace Jhalfs.Lfs

open Text

/-! ## The invariant -/

def targets (m : Makefile) : List (List Char) := m.rules.map Rule.target

/-- The five lists, one after the other. -/
def concatLists (lists : TargetList → List (List Char)) : List (List Char) :=
  lists .setupTgt ++ lists .luserTgt ++ lists .sudoTgt ++ lists .chrootTgt ++ lists .bootTgt

/-- Each rule depends on the one before, the first one on `p`. -/
def Chained : List Char → List Rule → Prop
  | _, [] => True
  | p, r :: rs => r.prereq = p ∧ Chained r.target rs

/-- The rules are a chain that ends with `PREV`, the target of the last rule. So a further rule with
this prerequisite goes on with the chain. -/
structure Linked (m : Makefile) : Prop where
  chain : Chained [] m.rules
  prev : m.prev = (targets m).getLastD []

/-- The lists hold what has been written, but for what is pending, in the order in which it was
written. The lists after the current one are empty. -/
structure Filed (pending : List (List Char)) (m : Makefile) : Prop where
  written : targets m = concatLists m.lists ++ pending
  later : ∀ t : TargetList, m.makefileTarget.rank < t.rank → m.lists t = []

theorem chained_concat (p : List Char) (rs : List Rule) (r : Rule) :
    Chained p (rs ++ [r]) ↔ Chained p rs ∧ r.prereq = (rs.map Rule.target).getLastD p := by
  induction rs generalizing p with
  | nil => simp [Chained]
  | cons x rs ih =>
    show x.prereq = p ∧ Chained x.target (rs ++ [r]) ↔ (x.prereq = p ∧ Chained x.target rs) ∧ _
    rw [ih, and_assoc, List.map_cons, List.getLastD_cons]

@[simp] theorem targets_wrtTarget (m : Makefile) (name : List Char) (r : Recipe) :
    targets (m.wrtTarget name r) = targets m ++ [name] := by
  unfold targets Makefile.wrtTarget
  simp

@[simp] theorem lists_wrtTarget (m : Makefile) (name : List Char) (r : Recipe) :
    (m.wrtTarget name r).lists = m.lists := rfl

/-- A rule that depends on `PREV` goes on with the chain. -/
theorem Linked.wrtTarget {m : Makefile} (h : Linked m) (name : List Char) (r : Recipe) :
    Linked (m.wrtTarget name r) := by
  constructor
  · show Chained [] (m.rules ++ [⟨name, m.prev, r⟩])
    rw [chained_concat]
    exact ⟨h.chain, h.prev⟩
  · rw [targets_wrtTarget, List.getLastD_concat]
    rfl

/-- `Linked` is about the rules and `PREV` alone. -/
theorem Linked.congr {m m' : Makefile} (h : Linked m) (hrules : m'.rules = m.rules)
    (hprev : m'.prev = m.prev) : Linked m' := by
  constructor
  · rw [hrules]
    exact h.chain
  · unfold targets
    rw [hprev, hrules]
    exact h.prev

@[simp] theorem setList_self (lists : TargetList → List (List Char)) (t : TargetList)
    (names : List (List Char)) : setList lists t names t = names := if_pos rfl

theorem setList_of_ne (lists : TargetList → List (List Char)) {t u : TargetList}
    (names : List (List Char)) (h : u ≠ t) : setList lists t names u = lists u := if_neg h

/-- What is put at the end of a list is at the end of all lists if those after it are
empty. -/
theorem concatLists_setList {lists : TargetList → List (List Char)} {t : TargetList}
    (h : ∀ u : TargetList, t.rank < u.rank → lists u = []) (names : List (List Char)) :
    concatLists (setList lists t (lists t ++ names)) = concatLists lists ++ names := by
  have hsudo := h .sudoTgt
  have hluser := h .luserTgt
  have hchroot := h .chrootTgt
  have hboot := h .bootTgt
  cases t <;> simp_all [concatLists, setList, TargetList.rank]

/-! ## Scripts that are skipped -/

theorem getLast_of_endsWith {w : String} {name : List Char} (h : endsWith w name = true)
    (hw : w.toList ≠ []) : name.getLast? = w.toList.getLast? := by
  obtain ⟨u, rfl⟩ := List.isSuffixOf_iff_suffix.mp h
  rw [List.getLast?_append]
  cases hlast : w.toList.getLast? with
  | none => exact absurd (List.getLast?_eq_none_iff.mp hlast) hw
  | some c => rfl

/-- The last characters of the scripts that change the list. -/
theorem getLast_of_marker {name : List Char} {t : TargetList} (h : marker name = some t) :
    name.getLast? = some 't' ∨ name.getLast? = some 'r' ∨ name.getLast? = some 's' ∨
      name.getLast? = some 'k' := by
  unfold marker at h
  split at h
  · exact Or.inl (getLast_of_endsWith ‹_› (by decide))
  · split at h
    · exact Or.inr (Or.inl (getLast_of_endsWith ‹_› (by decide)))
    · split at h
      · exact Or.inr (Or.inr (Or.inl (getLast_of_endsWith ‹_› (by decide))))
      · split at h
        · exact Or.inr (Or.inr (Or.inl (getLast_of_endsWith ‹_› (by decide))))
        · split at h
          · exact Or.inr (Or.inr (Or.inr (getLast_of_endsWith ‹_› (by decide))))
          · cases h

/-- A script that is skipped in the first build does not change the list. -/
theorem marker_of_skips {s : Settings} {nbChaps : Nat} {name : List Char}
    (h : skips s nbChaps false name = true) : marker name = none := by
  have hlast : name.getLast? = some 'n' ∨ name.getLast? = some 'b' ∨ name.getLast? = some 'l' := by
    unfold skips at h
    split at h
    · cases h
    · split at h
      · exact Or.inl (getLast_of_endsWith ‹_› (by decide))
      · split at h
        · cases h
        · split at h
          · rename_i hgrub
            have hends := (Bool.and_eq_true_iff.mp hgrub).2
            exact Or.inr (Or.inl (getLast_of_endsWith hends (by decide)))
          · split at h
            · rename_i hgrub
              exact Or.inr (Or.inl
                (getLast_of_endsWith (Bool.and_eq_true_iff.mp hgrub).2 (by decide)))
            · split at h
              · cases h
              · split at h
                · exact Or.inr (Or.inr (getLast_of_endsWith ‹_› (by decide)))
                · cases h
  cases hmark : marker name with
  | none => rfl
  | some t =>
    exfalso
    have hmarker := getLast_of_marker hmark
    rcases hlast with h | h | h <;> rw [h] at hmarker <;> revert hmarker <;> decide

/-- The name of a copy ends with a digit. -/
theorem getLast_copy (name : List Char) (run : Nat) :
    ∃ c, (name ++ buildSuffix run).getLast? = some c ∧ c.isDigit = true := by
  show ∃ c, (name ++ ("-build_".toList ++ decimal run)).getLast? = some c ∧ _
  rw [List.getLast?_append, List.getLast?_append]
  cases hdigits : (decimal run).getLast? with
  | none => exact absurd (List.getLast?_eq_none_iff.mp hdigits) (decimal_ne_nil run)
  | some c => exact ⟨c, rfl, isDigit_of_mem_decimal (List.mem_of_getLast? hdigits)⟩

/-- So it does not change the list. -/
theorem marker_copy (name : List Char) (run : Nat) : marker (name ++ buildSuffix run) = none := by
  cases hmark : marker (name ++ buildSuffix run) with
  | none => rfl
  | some t =>
    exfalso
    have hmarker := getLast_of_marker hmark
    obtain ⟨c, hc, hdigit⟩ := getLast_copy name run
    simp only [hc, Option.some.injEq] at hmarker
    rcases hmarker with rfl | rfl | rfl | rfl <;> revert hdigit <;> decide

/-! ## One script, one chapter -/

theorem linked_addScript {m : Makefile} (h : Linked m) (s : Settings) (nbChaps chap : Nat)
    (rebuild : Bool) (sc : Script) : Linked (addScript s nbChaps chap rebuild m sc) := by
  unfold addScript
  split
  · exact h
  · split
    · exact h
    · -- the lists and `system_build` play no part in the chain
      have hbase : Linked { m with
          makefileTarget := (marker sc.name).getD m.makefileTarget
          lists := setList m.lists ((marker sc.name).getD m.makefileTarget)
            (m.lists ((marker sc.name).getD m.makefileTarget) ++ [sc.name]) } := h.congr rfl rfl
      have hnext := hbase.wrtTarget sc.name
        (recipe s ((marker sc.name).getD m.makefileTarget) sc.name)
      dsimp only
      split
      · exact hnext.congr rfl rfl
      · exact hnext

theorem linked_foldl_addScript {m : Makefile} (h : Linked m) (s : Settings) (nbChaps chap : Nat)
    (rebuild : Bool) (scripts : List Script) :
    Linked (scripts.foldl (addScript s nbChaps chap rebuild) m) := by
  induction scripts generalizing m with
  | nil => exact h
  | cons sc scripts ih => exact ih (linked_addScript h s nbChaps chap rebuild sc)

/-- The current list behind some scripts, which are given by their names. The last script that
changes the list decides. -/
def listAfter (t : TargetList) (names : List (List Char)) : TargetList :=
  names.foldl (fun t name => (marker name).getD t) t

/-- The scripts change the list in the order of the lists, from the list that is given first on. -/
def inOrder : TargetList → List (List Char) → Bool
  | _, [] => true
  | t, name :: names =>
    t.rank ≤ ((marker name).getD t).rank && inOrder ((marker name).getD t) names

theorem addScript_spec {m : Makefile} (h : Filed [] m) (s : Settings) (nbChaps chap : Nat)
    (sc : Script) (hrank : m.makefileTarget.rank ≤ ((marker sc.name).getD m.makefileTarget).rank) :
    Filed [] (addScript s nbChaps chap false m sc) ∧
      (addScript s nbChaps chap false m sc).makefileTarget =
        (marker sc.name).getD m.makefileTarget := by
  unfold addScript
  split
  · rename_i hskips
    rw [marker_of_skips hskips]
    exact ⟨h, rfl⟩
  · split
    · rename_i hno
      rw [Bool.and_false, Bool.false_and] at hno
      cases hno
    · have hlater : ∀ u : TargetList, ((marker sc.name).getD m.makefileTarget).rank < u.rank →
          m.lists u = [] := fun u hu => h.later u (Nat.lt_of_le_of_lt hrank hu)
      have hwritten : targets m = concatLists m.lists := by
        rw [h.written, List.append_nil]
      dsimp only
      refine ⟨⟨?_, fun u hu => ?_⟩, ?_⟩
      · -- the target comes at the end of all the lists
        have hset := concatLists_setList hlater [sc.name]
        split
        · show targets (Makefile.wrtTarget _ sc.name _) = _
          rw [targets_wrtTarget, List.append_nil]
          show targets m ++ [sc.name] = concatLists (setList m.lists _ _)
          rw [hset, hwritten]
        · rw [targets_wrtTarget, List.append_nil]
          show targets m ++ [sc.name] = concatLists (setList m.lists _ _)
          rw [hset, hwritten]
      · have hrank' : ((marker sc.name).getD m.makefileTarget).rank < u.rank := by
          split at hu
          · exact hu
          · exact hu
        have hne : u ≠ (marker sc.name).getD m.makefileTarget := by
          rintro rfl
          exact Nat.lt_irrefl _ hrank'
        have hlists := (setList_of_ne m.lists
          (m.lists ((marker sc.name).getD m.makefileTarget) ++ [sc.name]) hne).trans
            (hlater u hrank')
        split
        · exact hlists
        · exact hlists
      · split
        · rfl
        · rfl

theorem foldl_addScript_spec {m : Makefile} (h : Filed [] m) (s : Settings) (nbChaps chap : Nat)
    {scripts : List Script} (horder : inOrder m.makefileTarget (scripts.map Script.name) = true) :
    Filed [] (scripts.foldl (addScript s nbChaps chap false) m) ∧
      (scripts.foldl (addScript s nbChaps chap false) m).makefileTarget =
        listAfter m.makefileTarget (scripts.map Script.name) := by
  induction scripts generalizing m with
  | nil => exact ⟨h, rfl⟩
  | cons sc scripts ih =>
    rw [List.map_cons, inOrder, Bool.and_eq_true, decide_eq_true_eq] at horder
    obtain ⟨hfiled, htarget⟩ := addScript_spec h s nbChaps chap sc horder.1
    have horder' := horder.2
    rw [← htarget] at horder'
    obtain ⟨hfiled', htarget'⟩ := ih hfiled horder'
    refine ⟨hfiled', ?_⟩
    rw [List.foldl_cons, htarget', htarget]
    rfl

/-- The names of the scripts of a directory, as the loop comes to them. -/
def scriptNames (files : List ScriptFile) : List (List Char) :=
  sortByName id (files.map ScriptFile.name)

theorem firstBuild_spec {m : Makefile} (hlinked : Linked m) (hfiled : Filed [] m) (s : Settings)
    (nbChaps chap : Nat) {files : List ScriptFile}
    (horder : inOrder m.makefileTarget (scriptNames files) = true) :
    Linked (firstBuild s nbChaps files chap m) ∧ Filed [] (firstBuild s nbChaps files chap m) ∧
      (firstBuild s nbChaps files chap m).makefileTarget =
        listAfter m.makefileTarget (scriptNames files) := by
  have hnames : ((inNameOrder files).map ScriptFile.script).map Script.name =
      scriptNames files := by
    rw [List.map_map]
    exact names_inNameOrder files
  rw [← hnames] at horder ⊢
  exact ⟨linked_foldl_addScript hlinked s nbChaps chap false _,
    foldl_addScript_spec hfiled s nbChaps chap horder⟩

/-! ## Rebuilds -/

/-- While a chapter is rebuilt in the chroot, its targets are in the local list, and the other lists
are as they were. -/
structure Rebuilding (m m' : Makefile) : Prop where
  target : m'.makefileTarget = .chrootTgt
  others : ∀ u : TargetList, u ≠ .chrootTgt → m'.lists u = m.lists u
  written : targets m' = targets m ++ m'.lists .chrootTgt

theorem Rebuilding.addScript {m m' : Makefile} (h : Rebuilding m m') (s : Settings)
    (nbChaps chap : Nat) {sc : Script} (hmarker : marker sc.name = none) :
    Rebuilding m (addScript s nbChaps chap true m' sc) := by
  unfold Lfs.addScript
  split
  · exact h
  · split
    · exact h
    · rw [hmarker, Option.getD_none, h.target]
      dsimp only
      rw [Bool.not_true, Bool.false_and, if_neg Bool.false_ne_true]
      constructor
      · rfl
      · intro u hu
        show setList m'.lists .chrootTgt _ u = _
        rw [setList_of_ne _ _ hu, h.others u hu]
      · rw [targets_wrtTarget, lists_wrtTarget]
        dsimp only
        rw [setList_self]
        show targets m' ++ _ = _
        rw [h.written, List.append_assoc]

/-- **A rebuild** leaves the lists as they are, and its targets in `system_build`: the list that it
fills is local to the function. -/
theorem copiesTargets_spec {m : Makefile} (hlinked : Linked m)
    (htarget : m.makefileTarget = .chrootTgt) (s : Settings) (nbChaps chap : Nat)
    {copies : List ScriptFile} (hmarker : ∀ copy ∈ copies, marker copy.name = none) :
    Linked (copiesTargets s nbChaps copies chap m) ∧
      (copiesTargets s nbChaps copies chap m).makefileTarget = .chrootTgt ∧
      (copiesTargets s nbChaps copies chap m).lists = m.lists ∧
      targets (copiesTargets s nbChaps copies chap m) =
        targets m ++ (copiesTargets s nbChaps copies chap m).systemBuild := by
  have hstart : Rebuilding m { m with lists := setList m.lists .chrootTgt [] } := by
    constructor
    · exact htarget
    · exact fun u hu => setList_of_ne _ _ hu
    · show targets m = targets m ++ setList m.lists .chrootTgt [] .chrootTgt
      rw [setList_self, List.append_nil]
  have hrun : ∀ (scripts : List Script) (m' : Makefile), (∀ sc ∈ scripts, marker sc.name = none) →
      Rebuilding m m' → Rebuilding m (scripts.foldl (addScript s nbChaps chap true) m') := by
    intro scripts
    induction scripts with
    | nil => exact fun m' _ h => h
    | cons sc scripts ih =>
      intro m' hnone h
      exact ih _ (fun sc' hsc => hnone sc' (List.mem_cons_of_mem _ hsc))
        (h.addScript s nbChaps chap (hnone sc List.mem_cons_self))
  have hnone : ∀ sc ∈ (inNameOrder copies).map ScriptFile.script, marker sc.name = none := by
    intro sc hsc
    obtain ⟨copy, hcopy, rfl⟩ := List.mem_map.mp hsc
    exact hmarker copy (mem_inNameOrder.mp hcopy)
  have hinner := hrun _ _ hnone hstart
  have hlocal : Linked { m with lists := setList m.lists .chrootTgt [] } := hlinked.congr rfl rfl
  have hchain := linked_foldl_addScript hlocal s nbChaps chap true
    ((inNameOrder copies).map ScriptFile.script)
  refine ⟨hchain.congr rfl rfl, hinner.target, ?_, hinner.written⟩
  funext u
  by_cases hu : u = .chrootTgt
  · subst hu
    unfold copiesTargets
    dsimp only
    rw [setList_self]
  · exact (setList_of_ne _ _ hu).trans (hinner.others u hu)

/-! ## Iterations -/

section Passes

variable {job : Job} {nbChaps chap : Nat}

/-- The chapter has scripts of these names, which are distinct. -/
def HasScripts (c : Chapters) (chap : Nat) (names : List (List Char)) : Prop :=
  names.Nodup ∧ (c.lookup (chapterDir chap)).map (List.map ScriptFile.name) = some names

theorem HasScripts.grows {c c' : Chapters} {names : List (List Char)}
    (h : HasScripts c chap names) (hgrows : Grows c c') : HasScripts c' chap names :=
  ⟨h.1, (hgrows.lookup chap).trans h.2⟩

/-- `wrt_system_build` files the target of the last iteration and the rebuilt targets and,
after the last rebuild, the target that comes next. -/
theorem systemBuildPass_spec {run : Nat} {prevIt : List Char} {x y : Makefile × Chapters}
    (hpass : systemBuildPass job nbChaps chap run prevIt x = some y) {names : List (List Char)}
    (hnames : HasScripts x.2 chap names) (hlinked : Linked x.1)
    (htarget : x.1.makefileTarget = .chrootTgt) :
    Linked y.1 ∧ y.1.makefileTarget = .chrootTgt ∧
      ∃ built, targets y.1 = targets x.1 ++ built ∧
        y.1.lists = setList x.1.lists .chrootTgt (x.1.lists .chrootTgt ++
          (prevIt :: built ++ if run = job.settings.iterations then [iteration run] else [])) := by
  obtain ⟨z, hz, rfl⟩ := Option.map_eq_some_iff.mp hpass
  obtain ⟨-, files, copies, hfiles, hcopies, rfl⟩ := rebuildPass_eq_some.mp hz
  have hdistinct : (files.map ScriptFile.name).Nodup := by
    have hlookup := hnames.2
    rw [hfiles, Option.map_some, Option.some.injEq] at hlookup
    exact hlookup ▸ hnames.1
  have hmarker : ∀ copy ∈ copies, marker copy.name = none := by
    intro copy hcopy
    obtain ⟨name, -, -, hname, -⟩ := (copies_spec hdistinct hcopies).origin copy hcopy
    rw [hname]
    exact marker_copy name run
  obtain ⟨hlinked', htarget', hlists, hwritten⟩ :=
    copiesTargets_spec hlinked htarget job.settings nbChaps chap hmarker
  refine ⟨hlinked'.congr rfl rfl, htarget',
    (copiesTargets job.settings nbChaps copies chap x.1).systemBuild, hwritten, ?_⟩
  show setList (copiesTargets job.settings nbChaps copies chap x.1).lists .chrootTgt _ = _
  rw [hlists]
  split
  · rw [List.append_assoc]
  · rw [List.append_nil]

/-- Between two iterations: the target of the last one is pending, until it is filed with
the next rebuild or, after the last rebuild, at once. -/
structure Compared (s : Settings) (chap : Nat) (names : List (List Char)) (run : Nat)
    (x : (Makefile × Chapters) × List Char) : Prop where
  linked : Linked x.1.1
  filed : Filed (if run = s.iterations then [] else [iteration run]) x.1.1
  target : x.1.1.makefileTarget = .chrootTgt
  prevIt : x.2 = iteration run
  names : HasScripts x.1.2 chap names

theorem Compared.step {names : List (List Char)} {run : Nat}
    {x y : (Makefile × Chapters) × List Char} (h : Compared job.settings chap names run x)
    (hpass : iterationPass job nbChaps chap x (run + 1) = some y) (hpos : run ≠ 0)
    (hrun : run < job.settings.iterations) : Compared job.settings chap names (run + 1) y := by
  obtain ⟨⟨m, c⟩, prevIt⟩ := x
  have hgrows := grows_iterationPass hpass
  obtain ⟨hlinked, hfiled, htarget, hprev, hnames⟩ := h
  dsimp only at hlinked hfiled htarget hprev hnames hgrows
  subst hprev
  rw [if_neg (Nat.ne_of_lt hrun)] at hfiled
  obtain ⟨z, hz, rfl⟩ := Option.map_eq_some_iff.mp hpass
  rw [if_pos (by omega)] at hz
  obtain ⟨hlinked', htarget', built, hwritten, hlists⟩ :=
    systemBuildPass_spec hz hnames hlinked htarget
  have hlater : ∀ u : TargetList, TargetList.chrootTgt.rank < u.rank → m.lists u = [] := by
    rw [← htarget]
    exact hfiled.later
  refine ⟨hlinked'.wrtTarget _ _, ⟨?_, fun u hu => ?_⟩, htarget', rfl, hnames.grows hgrows⟩
  · show targets (Makefile.wrtTarget _ _ _) = concatLists z.1.lists ++ _
    rw [targets_wrtTarget, hwritten, hlists, concatLists_setList hlater, hfiled.written]
    split <;> simp
  · have hu' : TargetList.chrootTgt.rank < u.rank := by
      rw [← htarget']
      exact hu
    have hne : u ≠ .chrootTgt := by
      rintro rfl
      exact Nat.lt_irrefl _ hu'
    show z.1.lists u = []
    rw [hlists, setList_of_ne _ _ hne]
    exact hlater u hu'

theorem Compared.first {names : List (List Char)} {x y : (Makefile × Chapters) × List Char}
    (hpass : iterationPass job nbChaps chap x 1 = some y) (hnames : HasScripts x.1.2 chap names)
    (hlinked : Linked x.1.1) (hfiled : Filed [] x.1.1) (htarget : x.1.1.makefileTarget = .chrootTgt)
    (hiterations : 2 ≤ job.settings.iterations) : Compared job.settings chap names 1 y := by
  cases hpass
  refine ⟨hlinked.wrtTarget _ _, ⟨?_, hfiled.later⟩, htarget, rfl, hnames⟩
  show targets (x.1.1.wrtTarget (iteration 1) .compareWork) = concatLists x.1.1.lists ++ _
  rw [targets_wrtTarget, hfiled.written, List.append_nil, if_neg (by omega)]

/-- The iterations one after the other, the last one of which leaves nothing pending. -/
theorem Compared.iterations {names : List (List Char)} {n run : Nat}
    {x y : (Makefile × Chapters) × List Char} (h : Compared job.settings chap names run x)
    (hpos : run ≠ 0) (hsum : run + n = job.settings.iterations)
    (hpass : (List.range' (run + 1) n).foldlM (iterationPass job nbChaps chap) x = some y) :
    Compared job.settings chap names job.settings.iterations y := by
  induction n generalizing run x with
  | zero =>
    cases hpass
    exact hsum ▸ h
  | succ n ih =>
    rw [List.range'_succ, List.foldlM_cons] at hpass
    obtain ⟨z, hz, hrest⟩ := Option.bind_eq_some_iff.mp hpass
    exact ih (h.step hz hpos (by omega)) (Nat.succ_ne_zero run) (by omega) hrest

theorem comparePass_spec {x y : Makefile × Chapters}
    (hpass : comparePass job nbChaps chap x = some y) {names : List (List Char)}
    (hnames : HasScripts x.2 chap names) (hlinked : Linked x.1) (hfiled : Filed [] x.1)
    (htarget : x.1.makefileTarget = .chrootTgt) (hiterations : 2 ≤ job.settings.iterations) :
    Linked y.1 ∧ Filed [] y.1 ∧ y.1.makefileTarget = .chrootTgt := by
  obtain ⟨z, hz, husers⟩ := Option.bind_eq_some_iff.mp hpass
  obtain ⟨c, -, rfl⟩ := Option.map_eq_some_iff.mp husers
  obtain ⟨n, hn⟩ : ∃ n, job.settings.iterations = 1 + n := Nat.exists_eq_add_of_le (by omega)
  rw [hn, Nat.add_comm, List.range'_succ, List.foldlM_cons] at hz
  obtain ⟨u, hu, hrest⟩ := Option.bind_eq_some_iff.mp hz
  have hlast := (Compared.first hu hnames hlinked hfiled htarget hiterations).iterations
    Nat.one_ne_zero hn.symm hrest
  have hfiled' := hlast.filed
  rw [if_pos rfl] at hfiled'
  exact ⟨hlast.linked, hfiled', hlast.target⟩

theorem wrtSaveTarget_spec {m : Makefile} (hlinked : Linked m) (hfiled : Filed [] m) :
    Linked (wrtSaveTarget m) ∧ Filed [] (wrtSaveTarget m) ∧
      (wrtSaveTarget m).makefileTarget = m.makefileTarget := by
  have hnext := hlinked.wrtTarget saveCh5 .saveWork
  refine ⟨hnext.congr rfl rfl, ⟨?_, fun u hu => ?_⟩, rfl⟩
  · show targets (m.wrtTarget saveCh5 .saveWork) =
      concatLists (setList m.lists m.makefileTarget (m.lists m.makefileTarget ++ [saveCh5])) ++ []
    rw [targets_wrtTarget, concatLists_setList hfiled.later, hfiled.written, List.append_nil,
      List.append_nil]
  · have hne : u ≠ m.makefileTarget := by
      rintro rfl
      exact Nat.lt_irrefl _ hu
    show setList m.lists m.makefileTarget _ u = []
    rw [setList_of_ne _ _ hne]
    exact hfiled.later u hu

/-! ## The whole Makefile -/

theorem listAfter_append (t : TargetList) (a b : List (List Char)) :
    listAfter t (a ++ b) = listAfter (listAfter t a) b := List.foldl_append

theorem inOrder_append (t : TargetList) (a b : List (List Char)) :
    inOrder t (a ++ b) = (inOrder t a && inOrder (listAfter t a) b) := by
  induction a generalizing t with
  | nil => rw [List.nil_append, inOrder, Bool.true_and]; rfl
  | cons name a ih =>
    rw [List.cons_append, inOrder, inOrder, ih, Bool.and_assoc]
    rfl

/-- The chapter of the final system ends in the chroot: the list behind its last script is that of
the chroot. -/
def finalInChroot (chapters : List (List ScriptFile)) : Prop :=
  listAfter .setupTgt ((chapters.take (chapters.length - 2)).flatMap scriptNames) = .chrootTgt

theorem chapterStep_spec {x y : Makefile × Chapters}
    (hpass : chapterStep job nbChaps x chap = some y) {files : List ScriptFile}
    (hnames : HasScripts x.2 chap (files.map ScriptFile.name)) (hlinked : Linked x.1)
    (hfiled : Filed [] x.1) (horder : inOrder x.1.makefileTarget (scriptNames files) = true)
    (hcompare : chap = 1 + nbChaps → job.settings.compare = true →
      2 ≤ job.settings.iterations ∧ listAfter x.1.makefileTarget (scriptNames files) = .chrootTgt) :
    Linked y.1 ∧ Filed [] y.1 ∧
      y.1.makefileTarget = listAfter x.1.makefileTarget (scriptNames files) := by
  rw [chapterStep_eq] at hpass
  obtain ⟨z, hz, hrest⟩ := Option.bind_eq_some_iff.mp hpass
  have hnames' := hnames.grows (grows_chapterPass hz)
  obtain ⟨found, -, hlookup, rfl⟩ := chapterPass_eq_some.mp hz
  have hfound : scriptNames (found.map (fixLocales job)) = scriptNames files := by
    have hsame := hnames.2
    rw [hlookup, Option.map_some, Option.some.injEq] at hsame
    rw [scriptNames, names_fixLocales, hsame, scriptNames]
  obtain ⟨hlinked1, hfiled1, htarget1⟩ :=
    firstBuild_spec hlinked hfiled job.settings nbChaps chap (hfound ▸ horder)
  rw [hfound] at htarget1
  obtain ⟨hlinked2, hfiled2, htarget2⟩ := wrtSaveTarget_spec hlinked1 hfiled1
  dsimp only at hrest hnames'
  by_cases hfinal : chap = 1 + nbChaps ∧ job.settings.compare = true
  · obtain ⟨hiterations, hchroot⟩ := hcompare hfinal.1 hfinal.2
    have hsave : ¬ (chap = nbChaps ∧ job.settings.saveCh5 = true) := fun h => by omega
    rw [if_pos hfinal, if_neg hsave] at hrest
    have hspec := comparePass_spec hrest hnames' hlinked1 hfiled1 (htarget1.trans hchroot)
      hiterations
    exact ⟨hspec.1, hspec.2.1, hspec.2.2.trans hchroot.symm⟩
  · rw [if_neg hfinal] at hrest
    cases hrest
    split
    · exact ⟨hlinked2, hfiled2, htarget2.trans htarget1⟩
    · exact ⟨hlinked1, hfiled1, htarget1⟩

/-- The loop over the chapters, behind the chapters `done` and with the chapters `rest` to come. The
list behind a chapter is the list before the next. -/
theorem chapterSteps_spec {chapters rest : List (List ScriptFile)}
    (hdistinct : ∀ files ∈ chapters, (files.map ScriptFile.name).Nodup)
    (horder : inOrder .setupTgt (chapters.flatMap scriptNames) = true)
    (hcompare : job.settings.compare = true →
      2 ≤ job.settings.iterations ∧ finalInChroot chapters)
    {done : List (List ScriptFile)} {x y : Makefile × Chapters} (happend : done ++ rest = chapters)
    (hgrows : Grows (extracted chapters).chapters x.2) (hlinked : Linked x.1)
    (hfiled : Filed [] x.1)
    (htarget : x.1.makefileTarget = listAfter .setupTgt (done.flatMap scriptNames))
    (hfold : (List.range' (4 + done.length) rest.length).foldlM
      (chapterStep job chapters.length) x = some y) : Linked y.1 ∧ Filed [] y.1 := by
  induction rest generalizing done x with
  | nil =>
    cases hfold
    exact ⟨hlinked, hfiled⟩
  | cons files rest ih =>
    rw [List.length_cons, List.range'_succ, List.foldlM_cons] at hfold
    obtain ⟨z, hz, hrest⟩ := Option.bind_eq_some_iff.mp hfold
    have happend' : (done ++ [files]) ++ rest = chapters := by
      rw [← happend]
      simp
    have hflatMap : (done ++ [files]).flatMap scriptNames =
        done.flatMap scriptNames ++ scriptNames files := by simp
    have hnames : HasScripts x.2 (4 + done.length) (files.map ScriptFile.name) := by
      have hfiles : files ∈ chapters := by
        rw [← happend]
        exact List.mem_append_right _ List.mem_cons_self
      refine HasScripts.grows ⟨hdistinct files hfiles, ?_⟩ hgrows
      rw [lookup_extracted, ← happend, List.getElem?_append_right (Nat.le_refl _), Nat.sub_self]
      rfl
    have horder' : inOrder x.1.makefileTarget (scriptNames files) = true := by
      have hall := horder
      rw [← happend', List.flatMap_append, hflatMap, inOrder_append, inOrder_append,
        ← htarget, Bool.and_eq_true, Bool.and_eq_true] at hall
      exact hall.1.2
    have hafter : listAfter x.1.makefileTarget (scriptNames files) =
        listAfter .setupTgt ((done ++ [files]).flatMap scriptNames) := by
      rw [hflatMap, listAfter_append, htarget]
    have hfinal : 4 + done.length = 1 + chapters.length → job.settings.compare = true →
        2 ≤ job.settings.iterations ∧
          listAfter x.1.makefileTarget (scriptNames files) = .chrootTgt := by
      intro hchap hcomp
      obtain ⟨hiterations, hchroot⟩ := hcompare hcomp
      have htake : chapters.take (chapters.length - 2) = done ++ [files] := by
        have hlen : chapters.length - 2 = (done ++ [files]).length := by
          simp only [List.length_append, List.length_cons, List.length_nil]
          omega
        rw [hlen, ← happend', List.take_left]
      refine ⟨hiterations, ?_⟩
      rw [hafter, ← htake]
      exact hchroot
    have hspec := chapterStep_spec hz hnames hlinked hfiled horder' hfinal
    refine ih happend' (hgrows.trans (grows_chapterStep hz)) hspec.1 hspec.2.1
      (hspec.2.2.trans hafter) ?_
    rwa [List.length_append, ← Nat.add_assoc]

/-- **The chapters of a book.** A run that ends leaves a chain, all of it in the lists. -/
theorem writeMakefile_spec {chapters : List (List ScriptFile)} {w : Written} {left : Commands}
    (hpass : writeMakefile job (extracted chapters) = some (w, left))
    (hdistinct : ∀ files ∈ chapters, (files.map ScriptFile.name).Nodup)
    (horder : inOrder .setupTgt (chapters.flatMap scriptNames) = true)
    (hcompare : job.settings.compare = true →
      2 ≤ job.settings.iterations ∧ finalInChroot chapters) :
    Linked w.makefile ∧ Filed [] w.makefile := by
  obtain ⟨last, hlast, hcustom⟩ := Option.bind_eq_some_iff.mp hpass
  have hmakefile : w.makefile = last.1 := makefile_customPass hcustom
  rw [hmakefile]
  have hcount := countChapters_extracted chapters
  -- a book without chapters is counted as one chapter, which is not there
  cases chapters with
  | nil => cases hlast
  | cons files rest =>
    have hmax : max 1 (files :: rest).length = (files :: rest).length :=
      Nat.max_eq_right (Nat.succ_pos rest.length)
    rw [hcount, hmax] at hlast
    have hlinked : Linked emptyMakefile := ⟨trivial, rfl⟩
    have hfiled : Filed [] emptyMakefile := ⟨rfl, fun _ _ => rfl⟩
    exact chapterSteps_spec hdistinct horder hcompare (List.nil_append (files :: rest))
      (Grows.refl _) hlinked hfiled rfl hlast

end Passes

end Jhalfs.Lfs
