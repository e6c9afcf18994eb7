import Jhalfs.Base.Cut
import Jhalfs.Base.Text

/-!
# The targets of the LFS Makefile

`build_Makefile` (LFS/master.sh) goes through the scripts of the book in order. For each
one it writes a rule that depends on the rule before, and puts the name of the target in
one of five lists: the targets of a list are made in one environment (as root, as the user
of the book, inside the chroot). The list changes at a few scripts, which the code knows by
their names.

This module has what is done for one script, and the targets that belong to no script. A rule
is modelled by its target, its prerequisite and the way its commands are run. What is written
is the state `Makefile`: the rules so far with the variables of the shell that the next rule
depends on.

- `marker`: the scripts at which the list changes. The list of such a script is the new one.
- `skips`: the scripts that get no target. In a rebuild this is asked of the names of the
  copies, which end with `-build_N`.
- `recipe`: the commands of a rule, which depend on the list and, for a few scripts, on the
  name.
- `addScript`: one script, from the test for the list to the rule.
- `wrtSaveTarget` and `iteration`: `save-ch5`, which packs the temporary tools, and
  `iteration-N`, which compares a build of the final system with the one before.

`Lfs.Copies` has the scripts as files and what a rebuild makes of them, and `Lfs.Passes` the
loops of the three shell files over them.
-/

namespace Jhalfs.Lfs

open Text

/-! ## Scripts and settings -/

/-- The five lists of targets. -/
inductive TargetList where
  | setupTgt
  | luserTgt
  | sudoTgt
  | chrootTgt
  | bootTgt
  deriving DecidableEq

/-- The order in which `make` makes the lists. -/
def TargetList.rank : TargetList → Nat
  | setupTgt => 0
  | luserTgt => 1
  | sudoTgt => 2
  | chrootTgt => 3
  | bootTgt => 4

/-- A script of the book: its file name, and the tarball that it unpacks. -/
structure Script where
  name : List Char
  pkgTarball : List Char

/-- The settings that decide which targets are written, and how. `config` and `fstab` tell
whether a kernel configuration and an fstab are given. -/
structure Settings where
  strip : Bool
  config : Bool
  fstab : Bool
  saveCh5 : Bool
  compare : Bool
  iterations : Nat

/-- The patterns `*w` and `d*w` of the shell. -/
def endsWith (w : String) (name : List Char) : Bool := w.toList.isSuffixOf name

def startsWith (w : String) (name : List Char) : Bool := w.toList.isPrefixOf name

/-- The scripts that change the list (master.sh:106–112). -/
def marker (name : List Char) : Option TargetList :=
  if endsWith "settingenvironment" name then some .luserTgt
  else if endsWith "changingowner" name then some .sudoTgt
  else if endsWith "creatingdirs" name then some .chrootTgt
  else if endsWith "bootscripts" name then some .bootTgt
  else if endsWith "network" name then some .bootTgt
  else none

/-- The scripts for which no target is written (master.sh:60–74). `nbChaps` is the number
of chapters, and `rebuild` tells whether `$N` is set. -/
def skips (s : Settings) (nbChaps : Nat) (rebuild : Bool) (name : List Char) : Bool :=
  if startsWith "5" name && endsWith "glibc" name then false
  else if endsWith "strippingagain" name then !s.strip
  else if contains name "linux-headers".toList then rebuild
  else if startsWith "8" name && endsWith "grub" name then nbChaps == 5
  else if startsWith "10" name && endsWith "grub" name then true
  else if endsWith "fstab" name then false
  else if endsWith "kernel" name then !s.config
  else false

/-- The scripts that are rebuilt although they unpack no tarball (master.sh:94–97). -/
def rebuiltAnyway (name : List Char) : Bool :=
  contains name "stripping".toList || contains name "revised".toList

/-! ## Rules -/

/-- How the commands of a rule are run: as root or as a user, inside the chroot or outside, or
by one of the functions for a special target. -/
inductive Recipe where
  | addinguser
  | settingenvironment
  | copyFstab
  | runAsRoot
  | runAsUser
  | chrootRunAsRoot
  | saveWork
  | compareWork
  deriving DecidableEq

structure Rule where
  target : List Char
  prereq : List Char
  recipe : Recipe

/-- The commands for a script in a list (master.sh:152–197). -/
def recipe (s : Settings) (list : TargetList) (name : List Char) : Recipe :=
  if endsWith "addinguser" name then .addinguser
  else if endsWith "settingenvironment" name then .settingenvironment
  else if endsWith "fstab" name then if s.fstab then .copyFstab else .chrootRunAsRoot
  else
    match list with
    | .setupTgt => .runAsRoot
    | .sudoTgt => .runAsRoot
    | .luserTgt => .runAsUser
    | .chrootTgt => .chrootRunAsRoot
    | .bootTgt => .chrootRunAsRoot

/-- The Makefile that is written, and the variables of the shell: `PREV`,
`Makefile_target`, the five lists and `system_build`. -/
structure Makefile where
  prev : List Char
  makefileTarget : TargetList
  lists : TargetList → List (List Char)
  systemBuild : List (List Char)
  rules : List Rule

/-- Assign a list. -/
def setList (lists : TargetList → List (List Char)) (t : TargetList) (names : List (List Char)) :
    TargetList → List (List Char) :=
  fun u => if u = t then names else lists u

/-- Write a rule that depends on the one before. -/
def Makefile.wrtTarget (m : Makefile) (name : List Char) (r : Recipe) : Makefile :=
  { m with prev := name, rules := m.rules ++ [⟨name, m.prev, r⟩] }

/-! ## Scripts of a chapter -/

/-- One script of `chapter_targets` (master.sh:45–218): it is skipped, or the list may change at it,
the target is put at the end of the list, and the rule depends on the one before. -/
def addScript (s : Settings) (nbChaps chap : Nat) (rebuild : Bool) (m : Makefile)
    (sc : Script) : Makefile :=
  if skips s nbChaps rebuild sc.name then m
  else if sc.pkgTarball.isEmpty && rebuild && !rebuiltAnyway sc.name then m
  else
    let list := (marker sc.name).getD m.makefileTarget
    let m := { m with
      makefileTarget := list
      lists := setList m.lists list (m.lists list ++ [sc.name]) }
    let m := m.wrtTarget sc.name (recipe s list sc.name)
    if !rebuild && chap == 1 + nbChaps then
      { m with systemBuild := m.systemBuild ++ [sc.name] }
    else m

/-- The suffix `-build_N`. -/
def buildSuffix (run : Nat) : List Char := "-build_".toList ++ decimal run

/-! ## Targets that are made up -/

/-- `iteration-N`. -/
def iteration (run : Nat) : List Char := "iteration-".toList ++ decimal run

/-- `save-ch5`. -/
def saveCh5 : List Char := "save-ch5".toList

/-- `wrt_save_target` (func_save.sh:4–17). -/
def wrtSaveTarget (m : Makefile) : Makefile :=
  let m := m.wrtTarget saveCh5 .saveWork
  { m with lists := setList m.lists m.makefileTarget (m.lists m.makefileTarget ++ [saveCh5]) }

/-- Nothing is written yet. -/
def emptyMakefile : Makefile := ⟨[], .setupTgt, fun _ => [], [], []⟩

end Jhalfs.Lfs
