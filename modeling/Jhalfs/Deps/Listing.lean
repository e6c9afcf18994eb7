import Jhalfs.Deps.Entry
import Jhalfs.Deps.Versions

/-!
# The dependencies of a package

`dependencies.xsl` lists the dependencies of a package for the first `.dep` files: a line
for each one that has to be installed, with its weight and its qualifier
(BLFS/xsl/dependencies.xsl). A dependency on a page of the book is left out when the
installed version is not older than the book's; an external one has no version, and is
always listed.

- `Dependency` and `Package` are the elements of packages.xml that the stylesheet reads. A
  dependency can have nested ones, so its lines are made by recursion over the element.
- `installIt` is the test on the versions, and `depname` the packages that stand for a
  group, such as a mail transport agent.
- `Justified` says why a line is listed: it stands for an external dependency, or for a
  package whose version in the book is newer. Every line of a listing is justified
  (`justified_of_mem_listing`), by recursion over the nested dependencies.
- `compareVersions_sound` joins this with what the last file says of the comparison.
-/

namespace Jhalfs

open Text

/-- The attribute `status`. -/
inductive Status where
  | required
  | recommended
  | optional

/-- A `dependency` element; `link` tells the type `link` from `ref`. -/
inductive Dependency where
  | mk (name : List Char) (link : Bool) (status : Status) (build : Build)
      (nested : List Dependency)

/-- A `package` or a `module` of packages.xml, with its versions in the book and on the disk and
what it depends on. -/
structure Package where
  name : List Char
  version : Option (List Char)
  instVersion : Option (List Char)
  dependencies : List Dependency

/-- A line of the list: what is written to the `.dep` file of the package, with the name still
a text. -/
structure Line where
  weight : Weight
  build : Build
  name : List Char

/-- `key('depnode',name)/version`; the empty text when there is none. -/
def versionOf (book : List Package) (name : List Char) : List Char :=
  ((book.filter fun p => p.name == name).filterMap Package.version).headD []

/-- `key('depnode',name)/inst-version`. -/
def instVersionOf (book : List Package) (name : List Char) : List Char :=
  ((book.filter fun p => p.name == name).filterMap Package.instVersion).headD []

/-- `depname`: the packages that stand for a group. -/
def depname (mta name : List Char) : List Char :=
  if name = "x-window-system".toList then "xinit".toList
  else if name = "xorg7".toList then "xinit".toList
  else if name = "server-mail".toList then mta
  else name

/-- `install_it`. No way to track versions of a link: install. A package of the book is
installed if its version there is newer than the installed one, the empty text if there is
none. -/
def installIt (book : List Package) (link : Bool) (name : List Char) : Bool :=
  link || compareVersions (versionOf book name) (instVersionOf book name) != 0

def weightOf (link : Bool) (status : Status) : Weight :=
  if link then .external
  else
    match status with
    | .required => .required
    | .recommended => .recommended
    | .optional => .optional

mutual

/-- The lines of a dependency: those of the nested ones, and its own. -/
def Dependency.lines (mta : List Char) (book : List Package) : Dependency → List Line
  | .mk name link status build nested =>
    linesOf mta book nested ++
      if installIt book link (depname mta name) then
        [⟨weightOf link status, build, depname mta name⟩]
      else []

def linesOf (mta : List Char) (book : List Package) : List Dependency → List Line
  | [] => []
  | d :: ds => d.lines mta book ++ linesOf mta book ds

end

/-- `dependencies.xsl` for the package `idofdep`. -/
def listing (mta : List Char) (book : List Package) (idofdep : List Char) : List Line :=
  (book.filter fun p => p.name == idofdep).flatMap fun p => linesOf mta book p.dependencies

/-! ## What is listed -/

/-- The line stands for a dependency that is external, or newer in the book. -/
def Justified (book : List Package) (l : Line) : Prop :=
  l.weight = .external ∨ Newer (versionOf book l.name) (instVersionOf book l.name)

theorem justified_of_installIt {book : List Package} {link : Bool} {name : List Char}
    (h : installIt book link name = true) (status : Status) (build : Build) :
    Justified book ⟨weightOf link status, build, name⟩ := by
  cases link with
  | true => exact Or.inl rfl
  | false =>
    rw [installIt, Bool.false_or, bne_iff_ne] at h
    exact Or.inr h

mutual

theorem Dependency.justified_of_mem {mta : List Char} {book : List Package} {l : Line} :
    ∀ {d : Dependency}, l ∈ d.lines mta book → Justified book l
  | .mk name link status build nested, h => by
    rw [Dependency.lines, List.mem_append] at h
    rcases h with hnested | hown
    · exact justified_of_mem_linesOf hnested
    · split at hown
      · next hinstall =>
        rw [List.mem_singleton.mp hown]
        exact justified_of_installIt hinstall status build
      · cases hown

theorem justified_of_mem_linesOf {mta : List Char} {book : List Package} {l : Line} :
    ∀ {ds : List Dependency}, l ∈ linesOf mta book ds → Justified book l
  | [], h => by cases h
  | d :: ds, h => by
    rw [linesOf, List.mem_append] at h
    rcases h with hfirst | hrest
    · exact Dependency.justified_of_mem hfirst
    · exact justified_of_mem_linesOf hrest

end

theorem justified_of_mem_listing {mta : List Char} {book : List Package} {idofdep : List Char}
    {l : Line} (h : l ∈ listing mta book idofdep) : Justified book l := by
  obtain ⟨p, -, hl⟩ := List.mem_flatMap.mp h
  exact justified_of_mem_linesOf hl

/-- **A sound comparison**: `compare-versions` is a strict order, a listed dependency is
external or has another version in the book than installed, and decimal versions are
compared number by number. -/
theorem compareVersions_sound :
    (∀ v, ¬ Newer v v) ∧ (∀ v w, Newer v w → ¬ Newer w v) ∧
      (∀ u v w, Newer u v → Newer v w → Newer u w) ∧
      (∀ mta book idofdep, ∀ l ∈ listing mta book idofdep, l.weight ≠ .external →
        versionOf book l.name ≠ instVersionOf book l.name) ∧
      ∀ v w, Decimal v → Decimal w →
        (Newer v w ↔ List.Lex (· < ·) (componentNumbers w) (componentNumbers v)) := by
  refine ⟨not_newer_self, fun v w => Newer.asymm, fun u v w => Newer.trans, ?_,
    fun v w => newer_iff_numbers⟩
  intro mta book idofdep l hl hweight heq
  have hnewer := (justified_of_mem_listing hl).resolve_left hweight
  rw [heq] at hnewer
  exact not_newer_self _ hnewer

namespace Sample

/-- The package `foo` has an external dependency with the name of an installed package. -/
def linkedBook : List Package :=
  [⟨"foo".toList, some "1.0".toList, none, [.mk "dbus".toList true .required .b []]⟩,
    ⟨"dbus".toList, some "1.14".toList, some "1.14".toList, []⟩]

end Sample

/-- An external dependency is listed without a look at the versions. -/
theorem linkedBook_lists_installed :
    ¬ ∀ mta book idofdep, ∀ l ∈ listing mta book idofdep,
      versionOf book l.name ≠ instVersionOf book l.name := by
  intro h
  have hmem : (⟨.external, .b, "dbus".toList⟩ : Line) ∈
      listing "sendmail".toList Sample.linkedBook "foo".toList := List.mem_singleton.mpr rfl
  exact h _ _ _ _ hmem rfl

end Jhalfs
