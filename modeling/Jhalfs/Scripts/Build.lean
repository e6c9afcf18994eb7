import Jhalfs.Base.Make
import Jhalfs.Common.TrackFile
import Jhalfs.Scripts.Tracking

/-!
# Building the packages

The Makefile of BLFS is run until all is built, and scripts fail on the way: `make` is called
again after each failure. A rule (gen-makefile.sh:23–73) runs its script, records the package
in the tracking file and touches the target, in this order. The second step is itself a chain
of commands, `xsltproc` to a temporary file, `sed` on it, and
`xmllint --format … > $(TRACKING_FILE)`: the shell empties the tracking file before `xmllint`
begins. So a rule can end in four ways (`Outcome`), and the one in which `xmllint` does not come
to its end is worse than the others: the tracking file is no document any more, and the
`xsltproc` of every later rule fails on it.

- `World`: the runs of the scripts so far, and the tracking file, `none` when it has been cut.
- `makeAll`: one invocation of `make`, on the Makefile that `generateMakefile` writes. It is one
  pass over the chain of the scripts (`makeAll_eq_pass`).
- `builds`: the invocations one after the other, each with its own outcomes.
- `Progress`: the invariant of this. A number of scripts at the head of the list is built, each
  script that was run came next at its time, and the tracking file has the packages of those
  that are built. It can have the next one, too, when its rule was interrupted before the
  `touch`; and it is cut exactly when an `xmllint` failed, after which every rule fails.

**Main results**: `builds_spec` proves `Progress` over any number of invocations, whatever the
outcomes are. When an invocation succeeds all is built and recorded (`builds_complete`), and when
a target is then removed, its script and those after it are run again (`builds_remove`).
-/

namespace Jhalfs.Scripts

open Text Common

/-! ## The rules -/

/-- How the commands of a rule end: the script fails, or `xsltproc` or `sed` behind it; `xmllint`
fails when its redirection has emptied the tracking file; the rule ends between the new tracking
file and the `touch`; or all is well. `make` can be stopped at any of these places. -/
inductive Outcome where
  | fails
  | cuts
  | interrupted
  | succeeds
  deriving DecidableEq

/-- The scripts that were run, and the tracking file; `none` is one that was cut. -/
structure World where
  ran : List (List Char × Outcome)
  tracking : Option Installed

/-- The commands of a rule. The version is that of packages.xml, as none is given. When the
tracking file has been cut, `xsltproc` fails, however the script ends. -/
def recipe (packages : List Char → List Char) (outcome : List Char → Outcome) :
    Make.Recipes (List Char) World := fun target w =>
  match w.tracking with
  | none => (⟨w.ran ++ [(target, .fails)], none⟩, false)
  | some installed =>
    let ran := w.ran ++ [(target, outcome target)]
    match outcome target with
    | .fails => (⟨ran, some installed⟩, false)
    | .cuts => (⟨ran, none⟩, false)
    | .interrupted => (⟨ran, some (bump packages (wrtTouch target) ['N'] installed)⟩, false)
    | .succeeds => (⟨ran, some (bump packages (wrtTouch target) ['N'] installed)⟩, true)

/-- The prerequisites in the rule of a target. -/
def Makefile.prereqs (mk : Makefile) (target : List Char) : List (List Char) :=
  match mk.rules.find? fun rule => rule.1 == target with
  | some rule => if rule.2.isEmpty then [] else [rule.2]
  | none => []

/-- `make`, that is, `make all`. -/
def makeAll (mk : Makefile) (recipe : Make.Recipes (List Char) World)
    (d : Make.Disk (List Char) World) : Make.Disk (List Char) World × Bool :=
  let (s, ok) := Make.updateAll (Make.update mk.prereqs recipe (mk.rules.length + 2)) mk.pkgList
    ⟨d, []⟩
  (s.disk, ok)

/-! ## The chain of the scripts -/

theorem foldl_writeEntry_pkgList (names : List (List Char)) (mk : Makefile) :
    (names.foldl writeEntry mk).pkgList = mk.pkgList ++ names := by
  induction names generalizing mk with
  | nil => simp
  | cons name names ih => rw [List.foldl_cons, ih, writeEntry, List.append_assoc]; rfl

theorem generateMakefile_pkgList (dir : List (List Char)) :
    (generateMakefile dir).pkgList = glob dir := foldl_writeEntry_pkgList _ _

/-- The rules are looked up in a chain that begins with `before`. -/
theorem isChain_chained {prereqs : List Char → List (List Char)} {prev : List Char}
    {names : List (List Char)} {before : List (List Char × List Char)}
    (hlook : ∀ name, prereqs name =
      match (before ++ chained prev names).find? fun rule => rule.1 == name with
      | some rule => if rule.2.isEmpty then [] else [rule.2]
      | none => [])
    (hnodup : (before.map Prod.fst ++ names).Nodup) (hne : ∀ name ∈ names, name ≠ []) :
    Make.IsChain prereqs (if prev.isEmpty then none else some prev) names := by
  induction names generalizing prev before with
  | nil => trivial
  | cons name names ih =>
    have hbefore : before.find? (fun rule => rule.1 == name) = none := by
      rw [List.find?_eq_none]
      intro rule hrule heq
      refine List.disjoint_of_nodup_append hnodup (List.mem_map_of_mem hrule) ?_
      rw [beq_iff_eq.mp heq]
      exact List.mem_cons_self
    refine ⟨?_, ?_⟩
    · rw [hlook, List.find?_append, hbefore, chained]
      simp only [Option.none_or, List.find?_cons, beq_self_eq_true]
      split
      · rfl
      · rfl
    · have hname : name.isEmpty = false := by simpa using hne name List.mem_cons_self
      have hlook' : ∀ n, prereqs n =
          match ((before ++ [(name, prev)]) ++ chained name names).find?
            fun rule => rule.1 == n with
          | some rule => if rule.2.isEmpty then [] else [rule.2]
          | none => [] := by
        intro n
        rw [hlook, chained]
        simp
      have h := ih hlook' (by simpa using hnodup) fun n hn => hne n (List.mem_cons_of_mem _ hn)
      rw [hname] at h
      exact h

theorem scriptName_ne_nil (position : Nat) (page : List Char) : scriptName position page ≠ [] := by
  rw [scriptName_eq]
  simp

theorem isChain_prereqs (book : List (List Char)) :
    Make.IsChain (generateMakefile (scriptNames book)).prereqs none (glob (scriptNames book)) := by
  have hlook : ∀ name, (generateMakefile (scriptNames book)).prereqs name =
      match ([] ++ chained [] (glob (scriptNames book)) : List (List Char × List Char)).find?
        fun rule => rule.1 == name with
      | some rule => if rule.2.isEmpty then [] else [rule.2]
      | none => [] := by
    intro name
    rw [Makefile.prereqs, generateMakefile_rules]
    rfl
  refine isChain_chained hlook ?_ fun name hname => ?_
  · exact nodup_glob _
  · obtain ⟨i, hi, rfl⟩ := List.mem_mapIdx.mp (mem_glob.mp hname)
    exact scriptName_ne_nil _ _

/-- `make all` is one pass over the scripts. -/
theorem makeAll_eq_pass (book : List (List Char)) (recipe : Make.Recipes (List Char) World)
    (d : Make.Disk (List Char) World) :
    makeAll (generateMakefile (scriptNames book)) recipe d =
      Make.pass recipe none (glob (scriptNames book)) d := by
  rw [makeAll, generateMakefile_pkgList]
  refine Make.updateAll_chain recipe _ (isChain_prereqs book) (nodup_glob _) (s := ⟨d, []⟩) ?_ ?_
  · intro p hp
    cases hp
  · intro t _ ht
    cases ht

/-! ## One invocation after the other -/

/-- The invocations of `make`; each time the scripts end as they may. -/
def builds (packages : List Char → List Char) (book : List (List Char))
    (history : List (List Char → Outcome)) (d : Make.Disk (List Char) World) :
    Make.Disk (List Char) World :=
  history.foldl (fun d outcome =>
    (makeAll (generateMakefile (scriptNames book)) (recipe packages outcome) d).1) d

/-- The directory of the build when the Makefile has been written. -/
def emptyDir (before : Installed) : Make.Disk (List Char) World :=
  ⟨fun _ => none, 0, ⟨[], some before⟩⟩

/-- The scripts that were run to their end. -/
def built (ran : List (List Char × Outcome)) : List (List Char) :=
  (ran.filter fun r => r.2 == .succeeds).map Prod.fst

/-- The packages of the scripts are recorded. -/
def track (packages : List Char → List Char) (names : List (List Char)) (before : Installed) :
    Installed :=
  names.foldl (fun installed name => bump packages (wrtTouch name) ['N'] installed) before

/-- The first `k` scripts are built.

- Each script that was run came next: as many were built before it as stand before it.
- The tracking file has the packages of those that are built, or one more when the rule of the
  next script was interrupted.
- It is cut when an `xmllint` failed, and only then. After this every rule fails, so the first
  `k` scripts are all that will be built. -/
structure Progress (packages : List Char → List Char) (names : List (List Char))
    (before : Installed) (k : Nat) (w : World) : Prop where
  built : built w.ran = names.take k
  next : ∀ i, (h : i < w.ran.length) →
    names[(Scripts.built (w.ran.take i)).length]? = some w.ran[i].1
  tracking : ∀ installed, w.tracking = some installed →
    installed = track packages (names.take k) before ∨
      installed = track packages (names.take (k + 1)) before ∧
        ∃ name, names[k]? = some name ∧ (name, .interrupted) ∈ w.ran
  cut : w.tracking = none ↔ ∃ r ∈ w.ran, r.2 = .cuts
  stuck : w.ran.Pairwise fun r r' => r.2 = .cuts → r'.2 = .fails

theorem built_concat (ran : List (List Char × Outcome)) (name : List Char) (o : Outcome) :
    built (ran ++ [(name, o)]) = built ran ++ if o = .succeeds then [name] else [] := by
  rw [built, List.filter_append, List.map_append]
  cases o
  · rfl
  · rfl
  · rfl
  · rfl

theorem bump_bump (packages : List Char → List Char) (package version : List Char)
    (installed : Installed) :
    bump packages package version (bump packages package version installed) =
      bump packages package version installed := by
  have hsame : ∀ (v : List Char) (e : List Char × List Char),
      (if (if e.1 = package then (e.1, v) else e).1 = package then
        ((if e.1 = package then (e.1, v) else e).1, v) else if e.1 = package then (e.1, v) else e) =
        if e.1 = package then (e.1, v) else e := by
    intro v e
    by_cases h : e.1 = package
    · simp [h]
    · simp [h]
  have hthere : (bump packages package version installed).any (fun e => e.1 == package) = true := by
    rw [bump]
    by_cases h : (installed.any fun e => e.1 == package) = true
    · obtain ⟨e, he, heq⟩ := List.any_eq_true.mp h
      refine List.any_eq_true.mpr ⟨_, List.mem_append_left _ (List.mem_map_of_mem he), ?_⟩
      simp [beq_iff_eq.mp heq]
    · rw [if_neg h]
      simp
  generalize hb : bump packages package version installed = b at hthere ⊢
  rw [bump, if_pos hthere, List.append_nil, ← hb, bump, List.map_append, List.map_map]
  congr 1
  · exact List.map_congr_left fun e _ => hsame _ e
  · by_cases h : (installed.any fun e => e.1 == package) = true
    · rw [if_pos h]
      rfl
    · rw [if_neg h]
      simp

theorem track_take_succ (packages : List Char → List Char) {names : List (List Char)}
    (before : Installed) {k : Nat} (hk : k < names.length) :
    track packages (names.take (k + 1)) before =
      bump packages (wrtTouch names[k]) ['N'] (track packages (names.take k) before) := by
  rw [← List.take_concat_get' names k hk, track, List.foldl_append]
  rfl

section Step

variable {packages : List Char → List Char} {names : List (List Char)} {before : Installed}
  {k : Nat} {w : World}

/-- A script is run that comes next. -/
theorem Progress.next_concat (hk : k < names.length) (h : Progress packages names before k w)
    (o : Outcome) : ∀ i, (hi : i < (w.ran ++ [(names[k], o)]).length) →
      names[(Scripts.built ((w.ran ++ [(names[k], o)]).take i)).length]? =
        some (w.ran ++ [(names[k], o)])[i].1 := by
  intro i hi
  rw [List.length_append, List.length_singleton] at hi
  rcases Nat.lt_or_ge i w.ran.length with hlt | hge
  · rw [List.take_append_of_le_length (Nat.le_of_lt hlt), List.getElem_append_left hlt]
    exact h.next i hlt
  · have hi' : i = w.ran.length := by omega
    subst hi'
    rw [List.take_left, h.built, List.length_take, Nat.min_eq_left (Nat.le_of_lt hk)]
    simp [hk]

/-- The rule of a script fails when the tracking file has been cut. -/
theorem Progress.step_cut (hk : k < names.length) (h : Progress packages names before k w)
    (hcut : w.tracking = none) :
    Progress packages names before k ⟨w.ran ++ [(names[k], .fails)], none⟩ where
  built := by
    rw [built_concat, h.built]
    exact List.append_nil _
  next := h.next_concat hk .fails
  tracking _ hsome := by cases hsome
  cut := by
    obtain ⟨r, hr, hcuts⟩ := h.cut.mp hcut
    exact ⟨fun _ => ⟨r, List.mem_append_left _ hr, hcuts⟩, fun _ => rfl⟩
  stuck := by
    refine List.pairwise_append.mpr ⟨h.stuck, List.pairwise_singleton _ _, ?_⟩
    intro r _ r' hr' _
    rw [List.mem_singleton.mp hr']

variable {installed : Installed}

/-- No `xmllint` has failed yet. -/
theorem Progress.not_cuts (h : Progress packages names before k w)
    (hsome : w.tracking = some installed) : ∀ r ∈ w.ran, r.2 ≠ .cuts := by
  intro r hr hcuts
  rw [h.cut.mpr ⟨r, hr, hcuts⟩] at hsome
  cases hsome

theorem Progress.stuck_concat (h : Progress packages names before k w)
    (hsome : w.tracking = some installed) (r : List Char × Outcome) :
    (w.ran ++ [r]).Pairwise fun r r' => r.2 = .cuts → r'.2 = .fails := by
  refine List.pairwise_append.mpr ⟨h.stuck, List.pairwise_singleton _ _, ?_⟩
  exact fun r hr _ _ hcuts => absurd hcuts (h.not_cuts hsome r hr)

theorem Progress.cut_concat (h : Progress packages names before k w)
    (hsome : w.tracking = some installed) {name : List Char} {o : Outcome} (ho : o ≠ .cuts)
    (installed' : Installed) :
    some installed' = none ↔ ∃ r ∈ w.ran ++ [(name, o)], r.2 = .cuts := by
  refine ⟨fun heq => (by cases heq), ?_⟩
  rintro ⟨r, hr, hcuts⟩
  rcases List.mem_append.mp hr with hr | hr
  · exact absurd hcuts (h.not_cuts hsome r hr)
  · rw [List.mem_singleton.mp hr] at hcuts
    exact absurd hcuts ho

/-- The package of the next script is recorded, perhaps a second time. -/
theorem Progress.record (hk : k < names.length) (h : Progress packages names before k w)
    (hsome : w.tracking = some installed) :
    bump packages (wrtTouch names[k]) ['N'] installed =
      track packages (names.take (k + 1)) before := by
  rw [track_take_succ packages before hk]
  rcases h.tracking installed hsome with htrack | ⟨htrack, -⟩
  · rw [htrack]
  · rw [htrack, track_take_succ packages before hk, bump_bump]

/-- A script is run: it is the one after those that are built. -/
theorem Progress.step (outcome : List Char → Outcome) (k : Nat) (w : World)
    (hk : k < names.length) (h : Progress packages names before k w) :
    Progress packages names before (if (recipe packages outcome names[k] w).2 then k + 1 else k)
      (recipe packages outcome names[k] w).1 := by
  cases hw : w.tracking with
  | none =>
    simp only [recipe, hw]
    exact h.step_cut hk hw
  | some installed =>
    have hbuilt : ∀ o : Outcome, o ≠ .succeeds →
        Scripts.built (w.ran ++ [(names[k], o)]) = names.take k := by
      intro o ho
      rw [built_concat, h.built, if_neg ho, List.append_nil]
    cases ho : outcome names[k] with
    | fails =>
      simp only [recipe, hw, ho]
      refine ⟨hbuilt _ (by decide), h.next_concat hk _, ?_, h.cut_concat hw (by decide) _,
        h.stuck_concat hw _⟩
      rintro installed' heq
      cases heq
      refine (h.tracking installed hw).imp_right fun ⟨htrack, name, hname, hmem⟩ => ?_
      exact ⟨htrack, name, hname, List.mem_append_left _ hmem⟩
    | cuts =>
      simp only [recipe, hw, ho]
      refine ⟨hbuilt _ (by decide), h.next_concat hk _, fun _ hsome => (by cases hsome), ?_,
        h.stuck_concat hw _⟩
      exact ⟨fun _ => ⟨_, List.mem_append_right _ (List.mem_singleton_self _), rfl⟩, fun _ => rfl⟩
    | interrupted =>
      simp only [recipe, hw, ho]
      refine ⟨hbuilt _ (by decide), h.next_concat hk _, ?_, h.cut_concat hw (by decide) _,
        h.stuck_concat hw _⟩
      rintro installed' heq
      cases heq
      refine Or.inr ⟨h.record hk hw, names[k], List.getElem?_eq_getElem hk, ?_⟩
      exact List.mem_append_right _ (List.mem_singleton_self _)
    | succeeds =>
      simp only [recipe, hw, ho]
      refine ⟨?_, h.next_concat hk _, ?_, h.cut_concat hw (by decide) _, h.stuck_concat hw _⟩
      · rw [built_concat, h.built, if_pos rfl, if_pos trivial]
        exact List.take_concat_get' names k hk
      · rintro installed' heq
        cases heq
        exact Or.inl (h.record hk hw)

/-- When all is built, the tracking file is not cut: the rule that cut it would be the last
that could have been built. -/
theorem Progress.tracking_of_full (h : Progress packages names before names.length w) :
    w.tracking = some (track packages names before) := by
  cases hw : w.tracking with
  | none =>
    obtain ⟨r, hr, hcuts⟩ := h.cut.mp hw
    obtain ⟨ran₁, ran₂, hran⟩ := List.append_of_mem hr
    have hlater : Scripts.built (r :: ran₂) = [] := by
      rw [Scripts.built, List.map_eq_nil_iff, List.filter_eq_nil_iff]
      have hstuck := h.stuck
      rw [hran] at hstuck
      have hrest := (List.pairwise_cons.mp (List.pairwise_append.mp hstuck).2.1).1
      intro r' hr'
      rcases List.mem_cons.mp hr' with rfl | hr'
      · rw [hcuts]
        decide
      · rw [hrest r' hr' hcuts]
        decide
    have hbuilt : Scripts.built w.ran = Scripts.built ran₁ := by
      rw [hran, Scripts.built, List.filter_append, List.map_append]
      exact (congrArg (Scripts.built ran₁ ++ ·) hlater).trans (List.append_nil _)
    have hnext := h.next ran₁.length (by rw [hran]; simp)
    have htake : w.ran.take ran₁.length = ran₁ := by rw [hran, List.take_left]
    rw [htake, ← hbuilt, h.built, List.take_length, List.getElem?_eq_none (Nat.le_refl _)] at hnext
    cases hnext
  | some installed =>
    rcases h.tracking installed hw with htrack | ⟨-, name, hname, -⟩
    · rw [htrack, List.take_length]
    · rw [List.getElem?_eq_none (Nat.le_refl _)] at hname
      cases hname

end Step

theorem past_makeAll (book : List (List Char)) (recipe : Make.Recipes (List Char) World)
    {d : Make.Disk (List Char) World} (h : d.Past) :
    (makeAll (generateMakefile (scriptNames book)) recipe d).1.Past := by
  rw [makeAll_eq_pass]
  exact (Make.pass_eq recipe none h (nodup_glob _) fun p hp => by cases hp).past

theorem past_builds (packages : List Char → List Char) (book : List (List Char))
    (history : List (List Char → Outcome)) {d : Make.Disk (List Char) World} (h : d.Past) :
    (builds packages book history d).Past := by
  induction history generalizing d with
  | nil => exact h
  | cons outcome history ih => exact ih (past_makeAll book _ h)

/-- What each rule keeps, the invocations keep. -/
theorem builds_rule {P : Nat → World → Prop} (packages : List Char → List Char)
    (book : List (List Char)) (history : List (List Char → Outcome))
    {d : Make.Disk (List Char) World} (hpast : d.Past)
    (hstep : ∀ outcome ∈ history, ∀ k w, (hk : k < (glob (scriptNames book)).length) → P k w →
      P (if (recipe packages outcome (glob (scriptNames book))[k] w).2 then k + 1 else k)
        (recipe packages outcome (glob (scriptNames book))[k] w).1)
    (h : P (Make.fresh d none (glob (scriptNames book))).length d.world) :
    P (Make.fresh (builds packages book history d) none (glob (scriptNames book))).length
      (builds packages book history d).world := by
  induction history generalizing d with
  | nil => exact h
  | cons outcome history ih =>
    refine ih (past_makeAll book _ hpast)
      (fun o ho => hstep o (List.mem_cons_of_mem _ ho)) ?_
    dsimp only
    rw [makeAll_eq_pass]
    exact Make.pass_rule _ hpast (nodup_glob _) (hstep outcome List.mem_cons_self) h

theorem past_emptyDir (before : Installed) : (emptyDir before).Past := fun _ _ h => by cases h

/-- **Over any number of invocations**, whatever the outcomes are: the scripts are built in the
order of their names and none is built twice, a script is only run when those before it are
built, and the tracking file says which are, until an `xmllint` fails and cuts it. -/
theorem builds_spec (packages : List Char → List Char) (book : List (List Char))
    (before : Installed) (history : List (List Char → Outcome)) :
    Progress packages (glob (scriptNames book)) before
      (Make.fresh (builds packages book history (emptyDir before)) none
        (glob (scriptNames book))).length
      (builds packages book history (emptyDir before)).world := by
  refine builds_rule packages book history (past_emptyDir before)
    (fun outcome _ => Progress.step outcome) ?_
  have hnone : ∀ names, Make.fresh (emptyDir before) none names = [] := by
    intro names
    cases names with
    | nil => rfl
    | cons name names => rfl
  rw [hnone]
  refine ⟨rfl, fun i hi => absurd hi (Nat.not_lt_zero i), fun installed hsome => ?_, ?_, .nil⟩
  · exact Or.inl (Option.some.inj hsome).symm
  · exact ⟨fun heq => (by cases heq), fun ⟨r, hr, _⟩ => (by cases hr)⟩

/-! ## The end of the build -/

theorem mem_bump_iff {packages : List Char → List Char} {package : List Char}
    {installed : Installed} {e : List Char × List Char} :
    e ∈ bump packages package ['N'] installed ↔
      e = (package, packages package) ∨ e ∈ installed ∧ e.1 ≠ package := by
  rw [bump, if_pos rfl, List.mem_append, List.mem_map]
  constructor
  · rintro (⟨f, hf, rfl⟩ | he)
    · split
      next h => exact Or.inl (congrArg (·, packages package) h)
      next h => exact Or.inr ⟨hf, h⟩
    · split at he
      · cases he
      · exact Or.inl (List.mem_singleton.mp he)
  · rintro (rfl | ⟨he, hne⟩)
    · by_cases hany : (installed.any fun e => e.1 == package) = true
      · obtain ⟨f, hf, hname⟩ := List.any_eq_true.mp hany
        have hname : f.1 = package := beq_iff_eq.mp hname
        exact Or.inl ⟨f, hf, by rw [if_pos hname, hname]⟩
      · rw [if_neg hany]
        exact Or.inr (List.mem_singleton_self _)
    · exact Or.inl ⟨e, he, if_neg hne⟩

theorem mem_track_iff {packages : List Char → List Char} {names : List (List Char)}
    {before : Installed} {e : List Char × List Char} :
    e ∈ track packages names before ↔
      (∃ name ∈ names, e = (wrtTouch name, packages (wrtTouch name))) ∨
        e ∈ before ∧ ∀ name ∈ names, e.1 ≠ wrtTouch name := by
  induction names generalizing before with
  | nil => simp [track]
  | cons name names ih =>
    show e ∈ track packages names (bump packages (wrtTouch name) ['N'] before) ↔ _
    rw [ih, mem_bump_iff]
    by_cases hlater : ∃ n ∈ names, e.1 = wrtTouch n
    · obtain ⟨n, hn, heq⟩ := hlater
      have hnot : ¬ ∀ n ∈ names, e.1 ≠ wrtTouch n := fun h => h n hn heq
      constructor
      · rintro (⟨m, hm, rfl⟩ | ⟨-, h⟩)
        · exact Or.inl ⟨m, List.mem_cons_of_mem _ hm, rfl⟩
        · exact absurd h hnot
      · rintro (⟨m, hm, rfl⟩ | ⟨-, h⟩)
        · exact Or.inl ⟨n, hn, Prod.ext heq (congrArg packages heq)⟩
        · exact absurd (fun n hn => h n (List.mem_cons_of_mem _ hn)) hnot
    · push Not at hlater
      have hnone : ¬ ∃ n ∈ names, e = (wrtTouch n, packages (wrtTouch n)) := by
        rintro ⟨n, hn, rfl⟩
        exact hlater n hn rfl
      simp only [hnone, false_or, List.mem_cons, exists_eq_or_imp, or_false, forall_eq_or_imp]
      constructor
      · rintro ⟨rfl | ⟨he, hne⟩, h⟩
        · exact Or.inl rfl
        · exact Or.inr ⟨he, hne, h⟩
      · rintro (rfl | ⟨he, hne, h⟩)
        · exact ⟨Or.inl rfl, hlater⟩
        · exact ⟨Or.inr ⟨he, hne⟩, h⟩

/-- All scripts are built, the packages of the pages are in the tracking file, and what else
is in it was there before. There is nothing left to do for `make`. -/
structure Complete (packages : List Char → List Char) (book : List (List Char)) (before : Installed)
    (d : Make.Disk (List Char) World) : Prop where
  built : built d.world.ran = glob (scriptNames book)
  tracking : ∃ installed, d.world.tracking = some installed ∧ ∀ e, e ∈ installed ↔
    (∃ page ∈ scripted book, e = (recordedName page, packages (recordedName page))) ∨
      e ∈ before ∧ ∀ page ∈ scripted book, e.1 ≠ recordedName page
  again : ∀ outcome,
    makeAll (generateMakefile (scriptNames book)) (recipe packages outcome) d = (d, true)

theorem exists_script_iff {book : List (List Char)} {P : List Char → Prop} :
    (∃ name ∈ glob (scriptNames book), P (wrtTouch name)) ↔
      ∃ page ∈ scripted book, P (recordedName page) := by
  constructor
  · rintro ⟨name, hname, h⟩
    obtain ⟨i, hi, rfl⟩ := List.mem_mapIdx.mp (mem_glob.mp hname)
    rw [wrtTouch_scriptName] at h
    exact ⟨_, List.getElem_mem hi, h⟩
  · rintro ⟨page, hpage, h⟩
    obtain ⟨i, hi, rfl⟩ := List.getElem_of_mem hpage
    refine ⟨scriptName (i + 1) (scripted book)[i], ?_, ?_⟩
    · exact mem_glob.mpr (List.mem_mapIdx.mpr ⟨i, hi, rfl⟩)
    · rw [wrtTouch_scriptName]
      exact h

/-- What is run when no script fails: the scripts that are not up to date, in their order. -/
structure RunsStale (packages : List Char → List Char) (names stale : List (List Char))
    (d : Make.Disk (List Char) World) (result : Make.Disk (List Char) World × Bool) : Prop where
  ok : result.2 = true
  ran : result.1.world.ran = d.world.ran ++ stale.map fun name => (name, .succeeds)
  tracking : result.1.world.tracking = d.world.tracking.map (track packages stale)
  fresh : Make.fresh result.1 none names = names

theorem perform_succeeds (packages : List Char → List Char) (names : List (List Char))
    (ran : List (List Char × Outcome)) (installed : Installed) :
    Make.perform (recipe packages fun _ => .succeeds) names ⟨ran, some installed⟩ =
      (names, ⟨ran ++ names.map fun name => (name, .succeeds),
        some (track packages names installed)⟩) := by
  induction names generalizing ran installed with
  | nil => simp [Make.perform, track]
  | cons name names ih =>
    have hrule : recipe packages (fun _ => .succeeds) name ⟨ran, some installed⟩ =
        (⟨ran ++ [(name, .succeeds)], some (bump packages (wrtTouch name) ['N'] installed)⟩,
          true) := rfl
    rw [Make.perform, hrule, if_pos rfl, ih]
    simp [track]

theorem makeAll_succeeds (packages : List Char → List Char) (book : List (List Char))
    {d : Make.Disk (List Char) World} (hpast : d.Past) {installed : Installed}
    (htracking : d.world.tracking = some installed) :
    RunsStale packages (glob (scriptNames book)) (Make.stale d none (glob (scriptNames book))) d
      (makeAll (generateMakefile (scriptNames book)) (recipe packages fun _ => .succeeds) d) := by
  rw [makeAll_eq_pass]
  have hpass := Make.pass_eq (recipe packages fun _ => .succeeds) none hpast
    (nodup_glob (scriptNames book)) fun p hp => by cases hp
  have hok := hpass.ok
  have hworld := hpass.world
  have hw : d.world = ⟨d.world.ran, some installed⟩ := by rw [← htracking]
  rw [hw, perform_succeeds] at hok hworld
  refine ⟨hok.mpr rfl, ?_, ?_, ?_⟩
  · rw [hworld]
  · rw [hworld, htracking]
    rfl
  · exact Make.fresh_of_ok hpass (Make.fresh_append_stale _ _ _) (hok.mpr rfl)

theorem fresh_of_makeAll (packages : List Char → List Char) (book : List (List Char))
    (before : Installed) (history : List (List Char → Outcome)) (outcome : List Char → Outcome)
    (hok : (makeAll (generateMakefile (scriptNames book)) (recipe packages outcome)
      (builds packages book history (emptyDir before))).2 = true) :
    Make.fresh (builds packages book (history ++ [outcome]) (emptyDir before)) none
      (glob (scriptNames book)) = glob (scriptNames book) := by
  have hpast := past_builds packages book history (past_emptyDir before)
  have hlast : builds packages book (history ++ [outcome]) (emptyDir before) =
      (makeAll (generateMakefile (scriptNames book)) (recipe packages outcome)
        (builds packages book history (emptyDir before))).1 := List.foldl_concat _ _ _ _
  rw [hlast]
  rw [makeAll_eq_pass] at hok ⊢
  have hpass := Make.pass_eq (recipe packages outcome) none hpast (nodup_glob (scriptNames book))
    fun p hp => by cases hp
  exact Make.fresh_of_ok hpass (Make.fresh_append_stale _ _ _) hok

/-- **When an invocation succeeds**, after any number that did not, all is built and recorded, and a
further one has nothing to do. -/
theorem builds_complete (packages : List Char → List Char) (book : List (List Char))
    (before : Installed) (history : List (List Char → Outcome)) (outcome : List Char → Outcome)
    (hok : (makeAll (generateMakefile (scriptNames book)) (recipe packages outcome)
      (builds packages book history (emptyDir before))).2 = true) :
    Complete packages book before
      (builds packages book (history ++ [outcome]) (emptyDir before)) := by
  have hspec := builds_spec packages book before (history ++ [outcome])
  have hfresh := fresh_of_makeAll packages book before history outcome hok
  rw [hfresh] at hspec
  refine ⟨?_, ⟨_, hspec.tracking_of_full, fun e => ?_⟩, fun outcome' => ?_⟩
  · rw [hspec.built, List.take_length]
  · rw [mem_track_iff, exists_script_iff (P := fun p => e = (p, packages p))]
    refine or_congr_right (and_congr_right fun _ => ?_)
    have hnot : ¬ (∃ name ∈ glob (scriptNames book), e.1 = wrtTouch name) ↔
        ¬ ∃ page ∈ scripted book, e.1 = recordedName page :=
      not_congr (exists_script_iff (P := fun p => e.1 = p))
    push Not at hnot
    exact hnot
  · rw [makeAll_eq_pass]
    exact Make.pass_of_fresh _ hfresh

/-- **A target is removed** from a complete build, and no script fails then: its script and those
after it are run again, in order, and no others. -/
theorem builds_remove (packages : List Char → List Char) (book : List (List Char))
    (before : Installed) (history : List (List Char → Outcome)) (outcome : List Char → Outcome)
    (hok : (makeAll (generateMakefile (scriptNames book)) (recipe packages outcome)
      (builds packages book history (emptyDir before))).2 = true)
    (i : Nat) (hi : i < (glob (scriptNames book)).length) :
    RunsStale packages (glob (scriptNames book)) ((glob (scriptNames book)).drop i)
      (builds packages book (history ++ [outcome]) (emptyDir before))
      (makeAll (generateMakefile (scriptNames book)) (recipe packages fun _ => .succeeds)
        ((builds packages book (history ++ [outcome]) (emptyDir before)).remove
          (glob (scriptNames book))[i])) := by
  set names := glob (scriptNames book) with hnames
  set d := builds packages book (history ++ [outcome]) (emptyDir before) with hd
  have hpast : d.Past := past_builds packages book _ (past_emptyDir before)
  have hfresh : Make.fresh d none names = names :=
    fresh_of_makeAll packages book before history outcome hok
  have hsplit : names = names.take i ++ names[i] :: names.drop (i + 1) := by
    rw [← List.drop_eq_getElem_cons hi, List.take_append_drop]
  have hremoved : Make.fresh (d.remove names[i]) none names = names.take i := by
    have hnodup : (names.take i ++ names[i] :: names.drop (i + 1)).Nodup := by
      rw [← hsplit]
      exact nodup_glob _
    have hprefix : names.take i <+:
        Make.fresh d none (names.take i ++ names[i] :: names.drop (i + 1)) := by
      rw [← hsplit, hfresh]
      exact List.take_prefix i names
    have h := Make.fresh_remove hnodup (by simp) hprefix
    rw [← hsplit] at h
    exact h
  have hstale : Make.stale (d.remove names[i]) none names = names.drop i := by
    rw [Make.stale, hremoved, List.length_take, Nat.min_eq_left (Nat.le_of_lt hi)]
  obtain ⟨installed, htracking, -⟩ :=
    (builds_complete packages book before history outcome hok).tracking
  have hrun := makeAll_succeeds packages book (d := d.remove names[i]) (hpast.remove _) htracking
  rw [← hnames, hstale] at hrun
  exact ⟨hrun.ok, hrun.ran, hrun.tracking, hrun.fresh⟩

/-- The tracking file is there while no `xmllint` fails. -/
theorem tracking_builds (packages : List Char → List Char) (book : List (List Char))
    (before : Installed) {history : List (List Char → Outcome)}
    (h : ∀ outcome ∈ history, ∀ name, outcome name ≠ .cuts) :
    ∃ installed, (builds packages book history (emptyDir before)).world.tracking =
      some installed := by
  refine builds_rule (P := fun _ w => ∃ installed, w.tracking = some installed) packages book
    history (past_emptyDir before) (fun outcome ho k w hk hw => ?_) ⟨before, rfl⟩
  obtain ⟨installed, hw⟩ := hw
  cases hend : outcome (glob (scriptNames book))[k] with
  | fails => exact ⟨installed, by simp only [recipe, hw, hend]⟩
  | cuts => exact absurd hend (h outcome ho _)
  | interrupted => exact ⟨_, by simp only [recipe, hw, hend]; rfl⟩
  | succeeds => exact ⟨_, by simp only [recipe, hw, hend]; rfl⟩

/-- Three pages. -/
def fontBook : List (List Char) := ["libpng".toList, "freetype2".toList, "harfbuzz".toList]

/-- Their versions. -/
def fontVersions (package : List Char) : List Char :=
  if package = "libpng".toList then "1.6.37".toList
  else if package = "freetype2".toList then "2.10.1".toList
  else "2.6.4".toList

/-- The script of the second page fails, then its rule is interrupted before the `touch`. -/
def fontHistory : List (List Char → Outcome) :=
  [fun name => if name = "002-z-freetype2".toList then .fails else .succeeds,
    fun name => if name = "002-z-freetype2".toList then .interrupted else .succeeds]

def fontBefore : Installed := [("bash".toList, "5.0".toList)]

/-- All is done at the third invocation. -/
def fontBuild : Make.Disk (List Char) World :=
  builds fontVersions fontBook (fontHistory ++ [fun _ => .succeeds]) (emptyDir fontBefore)

theorem fontHistory_succeeds :
    (makeAll (generateMakefile (scriptNames fontBook)) (recipe fontVersions fun _ => .succeeds)
      (builds fontVersions fontBook fontHistory (emptyDir fontBefore))).2 = true := by
  have hcuts : ∀ outcome ∈ fontHistory, ∀ name, outcome name ≠ .cuts := by
    rintro outcome (_ | ⟨_, _ | ⟨_, ⟨⟩⟩⟩) name
    all_goals
      dsimp only
      split <;> decide
  obtain ⟨installed, htracking⟩ := tracking_builds fontVersions fontBook fontBefore hcuts
  exact (makeAll_succeeds _ _ (past_builds _ _ _ (past_emptyDir _)) htracking).ok

theorem fontBook_complete : Complete fontVersions fontBook fontBefore fontBuild :=
  builds_complete fontVersions fontBook fontBefore fontHistory (fun _ => .succeeds)
    fontHistory_succeeds

theorem glob_fontBook : glob (scriptNames fontBook) =
    ["001-z-libpng".toList, "002-z-freetype2".toList, "003-z-harfbuzz".toList] := by
  rw [glob_scriptNames (by decide)]
  decide

/-- The target in the middle is removed, and two scripts are run again. -/
theorem fontBook_remove :
    RunsStale fontVersions
      ["001-z-libpng".toList, "002-z-freetype2".toList, "003-z-harfbuzz".toList]
      ["002-z-freetype2".toList, "003-z-harfbuzz".toList] fontBuild
      (makeAll (generateMakefile (scriptNames fontBook)) (recipe fontVersions fun _ => .succeeds)
        (fontBuild.remove "002-z-freetype2".toList)) := by
  have h := builds_remove fontVersions fontBook fontBefore fontHistory (fun _ => .succeeds)
    fontHistory_succeeds 1 (by rw [glob_fontBook]; decide)
  simp only [glob_fontBook, List.drop_succ_cons, List.drop_zero, List.getElem_cons_succ,
    List.getElem_cons_zero] at h
  exact h

end Jhalfs.Scripts
