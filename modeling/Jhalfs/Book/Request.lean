import Jhalfs.Book.Targets
import Jhalfs.Deps.Subgraph

/-!
# From the menu to the dependencies

`gen_pkg_book.sh` hands the targets and the level of the configuration to the dependency run.
This module joins the menu, the file it is saved to, `parse_configuration` and the first pass
over the dependencies.

- `levelOf`: the level is a number from 1 to 4, and another text makes no run.
- `requestOf`: the request, if the configuration makes one. The targets have to be ids of pages,
  and at least one.
- `nodup_targets`: the targets of the menu are pairwise different. A symbol occurs once in the
  file, and two symbols have two names.

**Main result**: `firstPass_configText`. A menu with a package and a level is saved, its file is
read, and the first pass leaves the files of exactly the packages that the request selects; with
each package that is set in the menu there is its file. For this the values of the menu are
written to the file (`Savable`), read back from it (`Parsable`), and followed through the
packages up to the level.

`pageMenu_firstPass` runs through all of it for a menu of a few packages, in which `zip` is set
and `unzip` is found.
-/

namespace Jhalfs.Book

open Text Menu Shell Common

/-- The levels of the menu. -/
def levelOf : List Char → Option Nat
  | ['1'] => some 1
  | ['2'] => some 2
  | ['3'] => some 3
  | ['4'] => some 4
  | _ => none

theorem levelOf_range {text : List Char} {level : Nat} (h : levelOf text = some level) :
    1 ≤ level ∧ level ≤ 4 := by
  rw [levelOf.eq_def] at h
  split at h
  all_goals
    cases h
  all_goals decide

/-- What the dependency run is asked for: the targets of the configuration, as ids of pages, at its
level. -/
def requestOf (c : Configuration) : Option Request := do
  let targets ← c.target.mapM idOf
  let level ← levelOf c.depLevel
  if h : targets ≠ [] ∧ targets.Nodup ∧ rootId ∉ targets ∧ 1 ≤ level ∧ level ≤ 4 then
    pure ⟨targets, level, h.1, h.2.1, h.2.2.1, h.2.2.2.1, h.2.2.2.2⟩
  else none

theorem mapM_idOf (targets : List Id) : (targets.map Id.chars).mapM idOf = some targets := by
  induction targets with
  | nil => rfl
  | cons id targets ih =>
    rw [List.map_cons, List.mapM_cons, idOf_chars, ih]
    rfl

theorem nodup_eraseDups {A : Type} [BEq A] [LawfulBEq A] (l : List A) : l.eraseDups.Nodup := by
  match l with
  | [] => exact List.nodup_nil
  | a :: l =>
    rw [List.eraseDups_cons, List.nodup_cons]
    refine ⟨fun hmem => ?_, nodup_eraseDups _⟩
    have hne := (List.mem_filter.mp (List.mem_eraseDups.mp hmem)).2
    simp at hne
  termination_by l.length
  decreasing_by exact Nat.lt_succ_of_le (List.length_filter_le _ _)

section

variable {S C : Type} {m : Kconfig S C} {layout : List (Layout S C)}
  {user : Memo.Inputs m.InputVal} {val : ∀ k : Key S C, k.Val} [DecidableEq S]

/-- No package is a target twice. -/
theorem nodup_targets (hm : m.Savable layout) (hbook : Parsable m layout val) :
    (targets m layout val).Nodup := by
  rw [targets, List.Nodup, List.pairwise_filterMap]
  refine (nodup_eraseDups (symsOf layout)).imp_of_mem fun {s t} hs ht hne => ?_
  rintro n hn _ ht' rfl
  have hs' : s ∈ m.definedSyms := (hm.listed s).mp (List.mem_eraseDups.mp hs)
  have htdef : t ∈ m.definedSyms := (hm.listed t).mp (List.mem_eraseDups.mp ht)
  have hsname := ((selected_eq_some hbook hs').mp hn).1
  have htname := ((selected_eq_some hbook htdef).mp ht').1
  exact hne (hm.distinct t htdef s hs' (hsname.trans htname.symm))

theorem requestOf_targets {c : Configuration} {targets : List Id} {level : Nat}
    (htarget : c.target = targets.map Id.chars) (hlevel : levelOf c.depLevel = some level)
    (hne : targets ≠ []) (hnodup : targets.Nodup) (hroot : rootId ∉ targets) :
    ∃ r, requestOf c = some r ∧ r.targets = targets ∧ r.depLevel = level := by
  obtain ⟨hpos, hle⟩ := levelOf_range hlevel
  refine ⟨⟨targets, level, hne, hnodup, hroot, hpos, hle⟩, ?_, rfl, rfl⟩
  rw [requestOf, htarget, mapM_idOf, Option.bind_eq_bind, Option.bind_some, hlevel,
    Option.bind_eq_bind, Option.bind_some, dif_pos ⟨hne, hnodup, hroot, hpos, hle⟩]
  rfl

/-- **The packages of the menu are searched.** The file of the menu is parsed to a configuration,
this makes a request for the packages that are set, and the first pass leaves the files of
exactly the packages that the request selects. -/
theorem firstPass_configText (h : m.Solves user val) (hm : m.Savable layout)
    (hoff : m.modulesOn val = false) (hbook : Parsable m layout val) {header : List Char}
    (hheader : '\n' ∉ header ∧ '\\' ∉ header) (hne : targets m layout val ≠ [])
    (hroot : rootId ∉ targets m layout val) {s : S} (hs : s ∈ m.definedSyms)
    (hname : (m.sym s).name = "optDependency".toList) {text : List Char}
    (htext : m.written val s = some (.number text)) {level : Nat}
    (hlevel : levelOf text = some level) (vars : Env) (P : Packages) :
    ∃ c r F, parseConfiguration vars (m.configText header layout user val) = some (.parsed c) ∧
      requestOf c = some r ∧ r.targets = targets m layout val ∧ r.depLevel = level ∧
      firstPass P r = some F ∧ (∀ n, n ≠ rootId → (n ∈ F.names ↔ r.Selects P n)) ∧
      ∀ t ∈ m.definedSyms, ∀ n : Id, (m.sym t).name = "CONFIG_".toList ++ n.chars →
        triOf val t = 2 → n ∈ F.names := by
  obtain ⟨vars', hparse, hmem, hoption, -⟩ :=
    parseConfiguration_configText h hm hoff hbook hheader vars
  rw [if_neg hne] at hparse
  have hvar : vars' "optDependency".toList = some text := by
    rw [← hname, hoption s hs (hname ▸ List.mem_cons_self), htext]
    rfl
  have hdepLevel : levelOf (vars'.get "optDependency".toList) = some level := by
    rw [Env.get, hvar]
    exact hlevel
  obtain ⟨r, hr, htargets, hdep⟩ := requestOf_targets
    (c := configurationOf vars' ((targets m layout val).map Id.chars)) rfl hdepLevel hne
    (nodup_targets hm hbook) hroot
  obtain ⟨F, hF, hexplored⟩ := exists_explored_firstPass P r
  refine ⟨_, r, F, hparse, hr, htargets, hdep, hF, fun n hn => ?_, fun t ht n htname htwo => ?_⟩
  · exact (hexplored.mem_names_iff (fun _ => mem_names_generateDeps r.nonempty) hn).trans
      selects_iff_seeds.symm
  · have htarget : n ∈ r.targets := htargets ▸ (hmem n).mpr ⟨t, ht, htname, htwo⟩
    exact Subgraph.target_mem ⟨P, r, F, hF⟩ htarget

end

/-- `zip` requires `unzip`. -/
def zipPackages : Packages where
  ids := [⟨"zip".toList, rfl⟩]
  lines n := if n = ⟨"zip".toList, rfl⟩ then [required ⟨"unzip".toList, rfl⟩] else []
  listed n hn := by
    split at hn
    next h => exact List.mem_singleton.mpr h
    · exact absurd rfl hn
  reserved := by decide

/-- The menu selects `zip`, and `unzip` is found. -/
theorem pageMenu_firstPass : ∃ val c r F,
    pageMenu.Shows (pageMenu.setValue .zip (.tri 2) pageMenu.start) val ∧
    parseConfiguration (fun _ => none) (pageMenu.configText "Automatically generated".toList
      pageLayout (pageMenu.setValue .zip (.tri 2) pageMenu.start).user val) =
        some (.parsed c) ∧
    requestOf c = some r ∧ firstPass zipPackages r = some F ∧
    (⟨"unzip".toList, rfl⟩ : Id) ∈ F.names := by
  obtain ⟨val, hval, hoff, hlevel, -, htargets⟩ := pageMenu_shows
  have hheader : '\n' ∉ "Automatically generated".toList ∧
      '\\' ∉ "Automatically generated".toList := ⟨by decide, by decide⟩
  have htext : pageMenu.written val .optDependency = some (.number ['2']) := by
    rw [Kconfig.written, hlevel]
    rfl
  obtain ⟨c, r, F, hparse, hr, hrtargets, hdep, hF, hnames, -⟩ :=
    firstPass_configText hval.solves pageMenu_savable hoff (pageMenu_parsable hlevel) hheader
      (by simp [htargets]) (by rw [htargets]; decide) (by simp [pageMenu]) rfl htext rfl
      (fun _ => none) zipPackages
  refine ⟨val, c, r, F, hval, hparse, hr, hF, (hnames _ (by decide)).mpr ?_⟩
  rw [Request.Selects, hdep, if_neg (by decide), if_neg (by decide), hrtargets, htargets]
  refine ⟨_, List.mem_singleton_self _, Relation.ReflTransGen.single ?_⟩
  exact ⟨required ⟨"unzip".toList, rfl⟩, by decide, by decide, rfl⟩

end Jhalfs.Book
