import Jhalfs.Base.Cut
import Jhalfs.Base.Glob
import Jhalfs.Book.ApplyList
import Jhalfs.Scripts.Names

/-!
# The names in the tracking file

After a page is built, its package is recorded in the tracking file, and the name of the
package is taken from the name of the script, `<position>-z-<id>`. The Makefile of BLFS does
this for each target (`__wrt_touch`, BLFS/gen-makefile.sh:51–73), and the target `update`, which
is written for the BLFS tools, does it for all of them at the end (func_install_blfs:242–250).
The name goes to bump.xsl, which looks up the version in packages.xml. So three stylesheets and
two decoders have to agree on one name:

- make_book.xsl gives the page its id (`LinearPage.id`), scripts.xsl puts it in the file name
  (`scriptName`), and gen_pkg_list.xsl has written the name of the package in packages.xml from
  the same books (`packageName`). The copy of a package for the first of two passes has a page
  of its own, `<id>-pass1`, and no entry.
- `wrtTouch` removes the shortest `*-?-`, and knows that `lfs-bootscripts` stands as
  `bootscripts`. It always finds the id (`stripShortest_scriptName`): the position has no hyphen,
  so the first `-?-` of the name is the `-z-` that scripts.xsl has written.
- `update` removes the longest `*z-`, and has no such case. An id with `z-` in it is cut
  (`length_update_lt`).

**Main result**: `recovers_iff`, the pages for which both decoders find the name that is in
packages.xml.
-/

namespace Jhalfs.Scripts

open Text Book

/-! ## The decoders -/

/-- `pkg_name` of `__wrt_touch`: `${1#*-?-}`, without the `lfs-` of the bootscripts. -/
def wrtTouch (scriptName : List Char) : List Char :=
  let pkgName := stripShortest [.star, .lit '-', .any, .lit '-'] scriptName
  if pkgName = "lfs-bootscripts".toList then "bootscripts".toList else pkgName

/-- The package of the target `update`: `${file##*z-}`, what is behind the last `z-` of the
name. There is no case for the bootscripts. -/
def update (file : List Char) : List Char := stripLongest [.star, .lit 'z', .lit '-'] file

/-- The name that `__wrt_touch` records for a page, from its id alone, as it should be whatever
the position. -/
def recordedName (id : List Char) : List Char :=
  if id = "lfs-bootscripts".toList then "bootscripts".toList else id

/-! ## packages.xml -/

/-- What gen_pkg_list.xsl lists of the BLFS book: the ids of the elements with a version in
their label, of those that specialCases.xsl adds, and the modules of the xorg pages. -/
structure PackageList where
  ids : List (List Char)
  modules : List (List Char)

/-- The packages of LFS that are never updated, or whose version is taken from BLFS
(gen_pkg_list.xsl:95–108). -/
def leftOut : List (List Char) :=
  ["linux-headers".toList, "gcc".toList, "shadow".toList, "vim".toList, "dbus".toList,
    "systemd".toList, "Python".toList]

/-- Does a `sect1info` of LFS get an entry (gen_pkg_list.xsl:36–60,92–128)? -/
def listsSection (s : LfsSection) : Bool :=
  (match s.chapter with
    | .buildingSystem => true
    | .config => s.productnames.contains "bootscripts".toList
    | .bootable => s.productnames.contains "kernel".toList
    | .other => false) &&
  !(leftOut.any s.productnames.contains)

/-- The name under which a page stands in packages.xml: the first `productname` of a section of
LFS, and the id of what is taken from BLFS. Copies for the first pass have no entry. -/
def packageName (packageList : PackageList) : LinearPage → Option (List Char)
  | .lfs s => if listsSection s then some (s.productnames.headD []) else none
  | .release => some "LFS-Release".toList
  | .pass1 _ => none
  | .blfs id => if packageList.ids.contains id then some id else none
  | .xorg package => if packageList.modules.contains package then some package else none

/-- Both decoders find the name under which the page stands in packages.xml. -/
def Recovers (packageList : PackageList) (position : Nat) (page : LinearPage) : Prop :=
  wrtTouch (scriptName position page.id) = update (scriptName position page.id) ∧
    packageName packageList page = some (update (scriptName position page.id))

/-- The page has an entry: it is no copy for the first of two passes, no section of LFS that is
left out, and no page of BLFS without a version. -/
def hasEntry (packageList : PackageList) : LinearPage → Bool
  | .lfs s => listsSection s
  | .release => true
  | .pass1 _ => false
  | .blfs id => packageList.ids.contains id
  | .xorg package => packageList.modules.contains package

/-- But for the bootscripts, an entry has the id of the page as its name. -/
theorem packageName_eq {packageList : PackageList} {page : LinearPage}
    (hboot : page.id ≠ "lfs-bootscripts".toList) :
    packageName packageList page = if hasEntry packageList page then some page.id else none := by
  cases page with
  | lfs s =>
    have hid : lfsId s = s.productnames.headD [] := if_neg fun h => hboot (if_pos h)
    show (if listsSection s then _ else _) = if listsSection s then some (lfsId s) else none
    rw [hid]
  | release => rfl
  | pass1 realId => rfl
  | blfs id => rfl
  | xorg package => rfl

/-! ## The shortest beginning -/

theorem dash_notMem_order (position : Nat) : '-' ∉ order position := by
  rw [order_eq_pad]
  intro h
  have hdash := isDigit_of_mem_pad h
  revert hdash
  decide

theorem matchesAll_dash_any_dash (s : List Char) :
    matchesAll [.star, .lit '-', .any, .lit '-'] s = true ↔ ∃ c, ['-', c, '-'] <:+ s := by
  rw [matchesAll_star]
  constructor
  · rintro ⟨t, ht, h⟩
    obtain ⟨t₁, rfl, h₁⟩ := (matchesAll_lit _ _ _).mp h
    obtain ⟨c, t₂, rfl, h₂⟩ := (matchesAll_any _ _).mp h₁
    obtain ⟨t₃, rfl, h₃⟩ := (matchesAll_lit _ _ _).mp h₂
    rw [(matchesAll_nil _).mp h₃] at ht
    exact ⟨c, ht⟩
  · rintro ⟨c, h⟩
    exact ⟨_, h, rfl⟩

theorem matchesAll_z_dash (s : List Char) :
    matchesAll [.star, .lit 'z', .lit '-'] s = true ↔ "z-".toList <:+ s :=
  matchesAll_star_lits "z-".toList s

theorem scriptName_eq (position : Nat) (page : List Char) :
    scriptName position page = (order position ++ "-z-".toList) ++ page :=
  (List.append_assoc _ _ _).symm

/-- The shortest beginning ends behind `-z-`: before it there is one `-` only. -/
theorem stripShortest_scriptName (position : Nat) (page : List Char) :
    stripShortest [.star, .lit '-', .any, .lit '-'] (scriptName position page) = page := by
  rw [scriptName_eq]
  refine stripShortest_eq ?_ fun n hn hmatch => ?_
  · rw [matchesAll_dash_any_dash]
    exact ⟨'z', List.suffix_append _ _⟩
  · obtain ⟨c, hc⟩ := (matchesAll_dash_any_dash _).mp hmatch
    have hshort : (order position ++ "-z-".toList ++ page).take n <+:
        order position ++ "-z".toList := by
      rw [List.length_append] at hn
      have hthree : "-z-".toList.length = 3 := rfl
      refine List.prefix_of_prefix_length_le (List.take_prefix _ _)
        ⟨"-".toList ++ page, by simp⟩ ?_
      have htwo : "-z".toList.length = 2 := rfl
      simp only [List.length_take, List.length_append]
      omega
    -- a match has two dashes, the text before the end of `-z-` has one
    have hmany := (hc.sublist.trans hshort.sublist).count_le '-'
    rw [List.count_append, List.count_eq_zero_of_not_mem (dash_notMem_order position)] at hmany
    have htwo : 2 ≤ ['-', c, '-'].count '-' := by
      rw [List.count_cons_self, List.count_cons]
      simp
    have hone : "-z".toList.count '-' = 1 := by decide
    omega

theorem wrtTouch_scriptName (position : Nat) (page : List Char) :
    wrtTouch (scriptName position page) = recordedName page := by
  rw [wrtTouch, stripShortest_scriptName]
  rfl

/-! ## The longest beginning -/

/-- Without a `z-` in the id the longest beginning ends behind `-z-`, too. -/
theorem update_of_not {position : Nat} {page : List Char}
    (h : ¬ contains page "z-".toList = true) :
    update (scriptName position page) = page := by
  rw [update, scriptName_eq]
  refine stripLongest_eq ?_ fun t hne ht hmatch => ?_
  · rw [matchesAll_z_dash]
    exact ⟨order position ++ ['-'], by simp⟩
  · rw [matchesAll_z_dash] at hmatch
    rcases List.suffix_or_suffix_of_suffix hmatch (List.suffix_append _ t) with hin | hout
    · exact h (contains_iff.mpr (hin.isInfix.trans ht.isInfix))
    · -- a `z-` does not end with the first character of the id: there is a `-` before it
      have hcases : t = "z-".toList ∨ t = "-".toList := by
        have htails := (List.mem_tails _ _).mpr hout
        have hall : ∀ x ∈ "z-".toList.tails, x ≠ [] → x = "z-".toList ∨ x = "-".toList := by decide
        exact hall t htails hne
      rcases hcases with rfl | rfl
      · exact h (contains_iff.mpr ht.isInfix)
      · obtain ⟨w, hw⟩ := hmatch
        have hwhole : (w ++ ['z']) ++ ['-'] =
            ((order position ++ "-z".toList) ++ ['-']) ++ ['-'] := by
          simpa using hw
        have hchar := (List.append_inj' (List.append_cancel_right hwhole) rfl).2
        revert hchar
        decide

/-- With a `z-` in the id not all of the id is left. -/
theorem length_update_lt (position : Nat) {page : List Char}
    (h : contains page "z-".toList = true) :
    (update (scriptName position page)).length < page.length := by
  obtain ⟨a, b, hab⟩ := contains_iff.mp h
  have hname : scriptName position page =
      (order position ++ "-z-".toList ++ (a ++ "z-".toList)) ++ b := by
    rw [scriptName_eq, ← hab]
    simp
  have hmatch : matchesAll [.star, .lit 'z', .lit '-']
      (order position ++ "-z-".toList ++ (a ++ "z-".toList)) = true := by
    rw [matchesAll_z_dash, ← List.append_assoc]
    exact List.suffix_append _ _
  have hle := length_stripLongest_le (v := b) hmatch
  have hlen := congrArg List.length hab
  have htwo : "z-".toList.length = 2 := rfl
  rw [List.length_append, List.length_append] at hlen
  rw [update, hname]
  omega

/-- **When both find the package**: the page has an entry in packages.xml, its id has no `z-` in it,
where `update` would cut, and it is not that of the bootscripts, for which `update` has no case. -/
theorem recovers_iff (packageList : PackageList) (position : Nat) (page : LinearPage) :
    Recovers packageList position page ↔
      ¬ contains page.id "z-".toList = true ∧ page.id ≠ "lfs-bootscripts".toList ∧
        hasEntry packageList page = true := by
  rw [Recovers, wrtTouch_scriptName]
  constructor
  · rintro ⟨hsame, hname⟩
    have hz : ¬ contains page.id "z-".toList = true := by
      intro hz
      have hlt := length_update_lt position hz
      have hne : page.id ≠ "lfs-bootscripts".toList := by
        intro heq
        rw [heq] at hz
        revert hz
        decide
      have hrecorded : recordedName page.id = page.id := if_neg hne
      rw [← hsame, hrecorded] at hlt
      exact Nat.lt_irrefl _ hlt
    have hboot : page.id ≠ "lfs-bootscripts".toList := by
      intro hboot
      have hrecorded : recordedName page.id = "bootscripts".toList := if_pos hboot
      rw [hrecorded, update_of_not hz, hboot] at hsame
      revert hsame
      decide
    refine ⟨hz, hboot, ?_⟩
    rw [packageName_eq hboot] at hname
    by_contra hentry
    rw [if_neg hentry] at hname
    cases hname
  · rintro ⟨hz, hboot, hentry⟩
    have hrecorded : recordedName page.id = page.id := if_neg hboot
    rw [update_of_not hz, packageName_eq hboot, if_pos hentry]
    exact ⟨hrecorded, rfl⟩

/-- The page of the bootscripts of LFS, and the copy of a package for the first pass. -/
theorem lfsBootscripts_not_recovered :
    ¬ Recovers ⟨["mesa".toList], []⟩ 1 (.lfs ⟨["bootscripts".toList], .config⟩) ∧
      ¬ Recovers ⟨["mesa".toList], []⟩ 2 (.pass1 "mesa".toList) := by
  rw [recovers_iff, recovers_iff]
  exact ⟨fun h => h.2.1 rfl, fun h => Bool.false_ne_true h.2.2⟩

end Jhalfs.Scripts
