import Jhalfs.Base.Glob

/-!
# The tracking files of custom packages

When a custom package is built, an empty file `<PKG>-<PKG_VERSION>` is touched in the tracking
directory (`wrt_CustomTools_target`, common/libs/func_custom_pkgs:49–66). The rule for the
tracking file of the BLFS tools (BLFS/Makefile:118–136) reads the name and the version back
from the name of the file, with two `sed` commands, and `bump.xsl` records them.

- `trackFile`: the name of the file.
- `sedPack` and `sedVersion`: the two commands. Both cut at the last hyphen before a digit or a
  `c`, as their patterns are greedy.
- `bumpTracks`: the loop over the files, with what `bump.xsl` does for each.
- `Recorded`: the commands give back the name and the version, and the package is recorded.
- `isTracked`: the version begins with a digit or a `c` and has no hyphen before such a
  character, and the name is not hidden from the loop by a dot at its beginning.

The last hyphen before a digit or a `c` is the one that was written when the version has the
form of `isVersion`: a release number, as in `2019.78-1`, ends up as the version. Then the name
and the version are both found (`sed_pack_trackFile`, `sed_version_trackFile`), also when the
name has hyphens and digits.

**Main results**: `recorded_iff` says which packages are recorded, and `bumpTracks_spec` what is
recorded after the loop over the whole directory.
-/

namespace Jhalfs.Common

open Text

/-! ## The file -/

/-- A character that means nothing to make, to the shell and in a path. -/
def isPlainChar (c : Char) : Bool := c.isAlphanum || "+-._~:,@%=".toList.contains c

/-- `PKG` and `PKG_VERSION` of a script that builds a package. -/
structure CustomPackage where
  pkg : List Char
  pkgVersion : List Char
  nonempty : pkg ≠ []
  plain : (pkg ++ pkgVersion).all isPlainChar = true

/-- The file that the target touches (func_custom_pkgs:57 and 64). -/
def trackFile (p : CustomPackage) : List Char := p.pkg ++ '-' :: p.pkgVersion

/-! ## The rule -/

/-- `-[0-9c].*` -/
def dashVersion : List Char → Bool
  | '-' :: c :: _ => c.isDigit || c == 'c'
  | _ => false

/-- `/\(.*\)-[0-9c].*` -/
def slashName : List Char → Bool
  | '/' :: s => (greedy dashVersion s).isSome
  | _ => false

/-- `sed 's@.*/\(.*\)-[0-9c].*@\1@'`. -/
def sedPack (track : List Char) : List Char :=
  match greedy slashName track with
  | none => track
  | some (_, s) => ((greedy dashVersion s.tail).map Prod.fst).getD []

/-- `sed 's@.*-\([0-9c].*\)@\1@'`. -/
def sedVersion (track : List Char) : List Char :=
  match greedy dashVersion track with
  | none => track
  | some (_, s) => s.tail

/-- A package of the tracking file, with its version. -/
abbrev Installed := List (List Char × List Char)

/-- bump.xsl, with the versions of packages.xml. -/
def bump (packages : List Char → List Char) (package version : List Char)
    (installed : Installed) : Installed :=
  let vers := if version = ['N'] then packages package else version
  installed.map (fun e => if e.1 = package then (e.1, vers) else e) ++
    if installed.any fun e => e.1 == package then [] else [(package, vers)]

/-- The rule: `for track in $(TRACKING_DIR)/*-*`. A name that begins with a dot is not found. -/
def bumpTracks (packages : List Char → List Char) (trackingDir : List Char)
    (files : List (List Char)) (installed : Installed) : Installed :=
  (files.filter fun file =>
    file.head? != some '.' && matchesAll [.star, .lit '-', .star] file).foldl
      (fun installed file =>
        let track := trackingDir ++ '/' :: file
        bump packages (sedPack track) (sedVersion track) installed)
      installed

/-- The package is there with its version and no other, the rest is as before. This is what a
further record of a package is to do to the list. -/
structure Records (p : CustomPackage) (before after : Installed) : Prop where
  there : (p.pkg, p.pkgVersion) ∈ after
  only : ∀ e ∈ after, e.1 = p.pkg → e.2 = p.pkgVersion
  others : (after.filter fun e => e.1 != p.pkg) = before.filter fun e => e.1 != p.pkg

/-- The file of the package is decoded to what was encoded: both commands find their part, and the
rule records the package. -/
structure Recorded (trackingDir : List Char) (p : CustomPackage) : Prop where
  pack : sedPack (trackingDir ++ '/' :: trackFile p) = p.pkg
  version : sedVersion (trackingDir ++ '/' :: trackFile p) = p.pkgVersion
  recorded : ∀ packages installed,
    Records p installed (bumpTracks packages trackingDir [trackFile p] installed)

/-- The version begins with a digit or a `c`, and has no hyphen before one of these. -/
def isVersion (version : List Char) : Bool :=
  dashVersion ('-' :: version) && !version.tails.any dashVersion

/-- The file is found by the loop, and is decoded. -/
def isTracked (p : CustomPackage) : Bool :=
  p.pkg.head? != some '.' && isVersion p.pkgVersion

/-! ## The two commands -/

theorem dash_of_dashVersion {s : List Char} (h : dashVersion s = true) : s = '-' :: s.tail := by
  unfold dashVersion at h
  split at h
  · rfl
  · cases h

theorem slash_of_slashName {s : List Char} (h : slashName s = true) : s = '/' :: s.tail := by
  unfold slashName at h
  split at h
  · rfl
  · cases h

theorem isVersion_iff {version : List Char} : isVersion version = true ↔
    dashVersion ('-' :: version) = true ∧ ∀ w, w <:+ version → ¬ dashVersion w = true := by
  rw [isVersion, Bool.and_eq_true, Bool.not_eq_true', List.any_eq_false]
  simp only [List.mem_tails]

/-- The last hyphen before a version. -/
theorem greedy_dashVersion {version : List Char} (h : isVersion version = true)
    (name : List Char) :
    greedy dashVersion (name ++ '-' :: version) = some (name, '-' :: version) := by
  obtain ⟨hdash, hlast⟩ := isVersion_iff.mp h
  refine greedy_eq_some_iff.mpr ⟨rfl, hdash, fun w hw hne => hlast w ?_⟩
  exact (List.suffix_cons_iff.mp hw).resolve_left hne

section Sed

variable {p : CustomPackage} (trackingDir : List Char)

theorem slash_notMem_trackFile (p : CustomPackage) : '/' ∉ trackFile p := by
  intro h
  have hslash : '/' ∈ p.pkg ++ p.pkgVersion := by
    rw [trackFile, List.mem_append, List.mem_cons] at h
    exact List.mem_append.mpr (h.imp_right fun h => h.resolve_left (by decide))
  exact absurd (List.all_eq_true.mp p.plain '/' hslash) (by decide)

theorem sed_version_trackFile (h : isVersion p.pkgVersion = true) :
    sedVersion (trackingDir ++ '/' :: trackFile p) = p.pkgVersion := by
  have hsplit : trackingDir ++ '/' :: trackFile p =
      (trackingDir ++ '/' :: p.pkg) ++ '-' :: p.pkgVersion := by
    rw [trackFile, List.append_assoc, List.cons_append]
  rw [sedVersion, hsplit, greedy_dashVersion h]
  rfl

theorem sed_pack_trackFile (h : isVersion p.pkgVersion = true) :
    sedPack (trackingDir ++ '/' :: trackFile p) = p.pkg := by
  have hname : greedy dashVersion (trackFile p) = some (p.pkg, '-' :: p.pkgVersion) :=
    greedy_dashVersion h p.pkg
  have hpass : slashName ('/' :: trackFile p) = true := by rw [slashName, hname, Option.isSome_some]
  have hslash : greedy slashName (trackingDir ++ '/' :: trackFile p) =
      some (trackingDir, '/' :: trackFile p) := by
    refine greedy_eq_some_iff.mpr ⟨rfl, hpass, fun w hw hne hw' => ?_⟩
    -- behind the last slash there is none
    have hsuff := (List.suffix_cons_iff.mp hw).resolve_left hne
    rw [slash_of_slashName hw'] at hsuff
    exact slash_notMem_trackFile p (hsuff.subset List.mem_cons_self)
  rw [sedPack, hslash]
  dsimp only [List.tail_cons]
  rw [hname]
  rfl

/-- A version that is found is one. -/
theorem isVersion_of_sed
    (h : sedVersion (trackingDir ++ '/' :: trackFile p) = p.pkgVersion) :
    isVersion p.pkgVersion = true := by
  unfold sedVersion at h
  cases hgreedy : greedy dashVersion (trackingDir ++ '/' :: trackFile p) with
  | none =>
    rw [hgreedy] at h
    have hlen := congrArg List.length h
    simp only [trackFile, List.length_append, List.length_cons] at hlen
    omega
  | some r =>
    rw [hgreedy] at h
    obtain ⟨-, hdash, hlast⟩ := greedy_eq_some_iff.mp hgreedy
    have heq : r.2 = '-' :: p.pkgVersion := by
      rw [dash_of_dashVersion hdash]
      exact congrArg _ h
    rw [heq] at hdash hlast
    refine isVersion_iff.mpr ⟨hdash, fun w hw => ?_⟩
    refine hlast w (hw.trans (List.suffix_cons _ _)) fun hne => ?_
    have hlen := hw.length_le
    rw [hne, List.length_cons] at hlen
    omega

end Sed

/-! ## The record -/

section Record

variable {p q : CustomPackage} {before after : Installed}

theorem records_bump (h : p.pkgVersion ≠ ['N']) (packages : List Char → List Char)
    (installed : Installed) :
    Records p installed (bump packages p.pkg p.pkgVersion installed) := by
  unfold bump
  rw [if_neg h]
  dsimp only
  constructor
  · rw [List.mem_append]
    by_cases hany : (installed.any fun e => e.1 == p.pkg) = true
    · obtain ⟨e, he, heq⟩ := List.any_eq_true.mp hany
      have hname : e.1 = p.pkg := beq_iff_eq.mp heq
      refine Or.inl (List.mem_map.mpr ⟨e, he, ?_⟩)
      rw [if_pos hname, hname]
    · rw [if_neg hany]
      exact Or.inr (List.mem_singleton_self _)
  · intro e he hname
    rcases List.mem_append.mp he with he | he
    · obtain ⟨d, -, rfl⟩ := List.mem_map.mp he
      split at hname
      next hd => rw [if_pos hd]
      next hd => exact absurd hname hd
    · split at he
      · cases he
      · rw [List.mem_singleton.mp he]
  -- neither the version that is written nor a new entry changes the other names
  · have hmap : ∀ e : List Char × List Char,
        ((if e.1 = p.pkg then (e.1, p.pkgVersion) else e).1 != p.pkg) = (e.1 != p.pkg) := by
      intro e
      split
      · rfl
      · rfl
    have hnew : ((if installed.any fun e => e.1 == p.pkg then [] else [(p.pkg, p.pkgVersion)] :
        Installed).filter fun e => e.1 != p.pkg) = [] := by
      split
      · rfl
      · rw [List.filter_eq_nil_iff]
        intro e he
        rw [List.mem_singleton.mp he, bne_self_eq_false]
        exact Bool.false_ne_true
    rw [List.filter_append, hnew, List.append_nil, List.filter_map]
    simp only [Function.comp_def, hmap]
    rw [List.map_congr_left (g := id), List.map_id]
    intro e he
    rw [if_neg (bne_iff_ne.mp (List.mem_filter.mp he).2), id]

theorem mem_iff_of_records {e : List Char × List Char} (h : Records q before after)
    (he : e.1 ≠ q.pkg) : e ∈ after ↔ e ∈ before := by
  have hmem := congrArg (fun l => e ∈ l) h.others
  simpa [he] using hmem

end Record

section Loop

variable {trackingDir : List Char} {packages : List Char → List Char}

theorem head_trackFile (p : CustomPackage) : (trackFile p).head? = p.pkg.head? := by
  rw [trackFile, List.head?_append_of_ne_nil _ p.nonempty]

theorem matchesAll_trackFile (p : CustomPackage) :
    matchesAll [.star, .lit '-', .star] (trackFile p) = true := by
  refine (matchesAll_star _ _).mpr ⟨'-' :: p.pkgVersion, List.suffix_append _ _, ?_⟩
  refine (matchesAll_lit _ _ _).mpr ⟨p.pkgVersion, rfl, ?_⟩
  exact (matchesAll_star _ _).mpr ⟨[], List.nil_suffix, rfl⟩

theorem ne_N_of_isVersion {version : List Char} (h : isVersion version = true) :
    version ≠ ['N'] := by
  rintro rfl
  revert h
  decide

/-- On files that are decoded, the rule records one package after the other. -/
theorem bumpTracks_eq {ps : List CustomPackage} (h : ∀ p ∈ ps, isTracked p = true)
    (installed : Installed) : bumpTracks packages trackingDir (ps.map trackFile) installed =
      ps.foldl (fun installed p => bump packages p.pkg p.pkgVersion installed) installed := by
  have hall : (ps.map trackFile).filter (fun file =>
      file.head? != some '.' && matchesAll [.star, .lit '-', .star] file) = ps.map trackFile := by
    rw [List.filter_eq_self]
    intro file hfile
    obtain ⟨p, hp, rfl⟩ := List.mem_map.mp hfile
    rw [head_trackFile, matchesAll_trackFile, Bool.and_true]
    exact (Bool.and_eq_true_iff.mp (h p hp)).1
  rw [bumpTracks, hall, List.foldl_map]
  refine List.foldl_ext _ _ _ fun installed p hp => ?_
  have hversion := (Bool.and_eq_true_iff.mp (h p hp)).2
  dsimp only
  rw [sed_pack_trackFile trackingDir hversion, sed_version_trackFile trackingDir hversion]

/-- The packages that are not built stay as they are. -/
theorem mem_bumps_iff {e : List Char × List Char} {ps : List CustomPackage}
    (h : ∀ p ∈ ps, isTracked p = true) (he : ∀ p ∈ ps, e.1 ≠ p.pkg) (installed : Installed) :
    e ∈ ps.foldl (fun installed p => bump packages p.pkg p.pkgVersion installed) installed ↔
      e ∈ installed := by
  induction ps generalizing installed with
  | nil => rfl
  | cons p ps ih =>
    rw [List.forall_mem_cons] at h he
    have hne := ne_N_of_isVersion (Bool.and_eq_true_iff.mp h.1).2
    rw [List.foldl_cons, ih h.2 he.2]
    exact mem_iff_of_records (records_bump hne packages installed) he.1

/-- **The directory as a whole.** After the rule each package is recorded at its version, and
the packages that were not built are as before. -/
theorem bumpTracks_spec {ps : List CustomPackage} (h : ∀ p ∈ ps, isTracked p = true)
    (hnames : (ps.map CustomPackage.pkg).Nodup) (installed : Installed)
    (e : List Char × List Char) :
    e ∈ bumpTracks packages trackingDir (ps.map trackFile) installed ↔
      e ∈ ps.map (fun p => (p.pkg, p.pkgVersion)) ∨
        e ∈ installed ∧ e.1 ∉ ps.map CustomPackage.pkg := by
  rw [bumpTracks_eq h]
  induction ps generalizing installed with
  | nil => simp
  | cons p ps ih =>
    rw [List.forall_mem_cons] at h
    rw [List.map_cons, List.nodup_cons] at hnames
    have hrecords := records_bump (ne_N_of_isVersion (Bool.and_eq_true_iff.mp h.1).2) packages
      installed
    rw [List.foldl_cons, List.map_cons, List.map_cons, List.mem_cons, List.mem_cons]
    -- the files after this one write other names, so the entry stays as it is
    by_cases hp : e.1 = p.pkg
    · have hrest : ∀ q ∈ ps, e.1 ≠ q.pkg := fun q hq heq =>
        hnames.1 (hp ▸ heq ▸ List.mem_map_of_mem hq)
      have hnot : e ∉ ps.map fun q => (q.pkg, q.pkgVersion) := by
        rintro hmem
        obtain ⟨q, hq, rfl⟩ := List.mem_map.mp hmem
        exact hrest q hq rfl
      rw [mem_bumps_iff h.2 hrest, or_iff_left hnot, or_iff_left (fun h => h.2 (Or.inl hp))]
      constructor
      · exact fun he => Prod.ext hp (hrecords.only e he hp)
      · rintro rfl
        exact hrecords.there
    · have hne : e ≠ (p.pkg, p.pkgVersion) := fun heq => hp (congrArg Prod.fst heq)
      rw [ih h.2 hnames.2, mem_iff_of_records hrecords hp, or_iff_right hne, not_or,
        and_iff_right hp]

/-- **Which packages are recorded.** From left to right, a version that comes back from the name of
the file has the form of one, as the command cuts at the last possible hyphen. -/
theorem recorded_iff (trackingDir : List Char) (p : CustomPackage) :
    Recorded trackingDir p ↔ isTracked p = true := by
  constructor
  · intro h
    rw [isTracked, Bool.and_eq_true]
    refine ⟨?_, isVersion_of_sed trackingDir h.version⟩
    by_contra hhidden
    have hnone : bumpTracks (fun _ => []) trackingDir [trackFile p] [] = [] := by
      rw [bumpTracks, List.filter_cons, head_trackFile, Bool.eq_false_iff.mpr hhidden]
      rfl
    have hthere := (h.recorded (fun _ => []) []).there
    rw [hnone] at hthere
    cases hthere
  · intro h
    have hversion := (Bool.and_eq_true_iff.mp h).2
    refine ⟨sed_pack_trackFile trackingDir hversion, sed_version_trackFile trackingDir hversion,
      fun packages installed => ?_⟩
    have hone : bumpTracks packages trackingDir ([p].map trackFile) installed = _ :=
      bumpTracks_eq (fun q hq => List.mem_singleton.mp hq ▸ h) installed
    rw [List.map_singleton] at hone
    rw [hone]
    exact records_bump (ne_N_of_isVersion hversion) packages installed

end Loop

/-- A version with a release number. -/
def dropbear : CustomPackage := ⟨"dropbear".toList, "2019.78-1".toList, by decide, by decide⟩

theorem dropbear_not_recorded : ¬ Recorded "/var/lib/jhalfs/BLFS".toList dropbear := by
  intro h
  have hversion := h.version
  revert hversion
  decide

end Jhalfs.Common
