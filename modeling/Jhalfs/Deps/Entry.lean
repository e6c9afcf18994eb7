import Mathlib.Data.List.Infix
import Jhalfs.Base.Text

/-!
# Lines of the dependency files

The dependency graph lives in text files (BLFS/libs/func_dependencies:42–52): a
file `<node>.dep` holds one line for each edge that leaves `<node>`, made of
the weight of the edge, its qualifier and the name of its end.

- `Id` is a page id of the BLFS book, the `<node>` of a file. The functions paste
  a name into file names, into `grep` and `sed` patterns and into unquoted words,
  so it carries the fact that makes this harmless: it has only letters, digits,
  `-`, `_` and `+`, none of which is active in a basic regular expression, and it
  does not begin with the `-` of an option.
- `Weight` is the one digit of a weight, and `Build` the qualifier: before, after
  or first.
- `Entry` is a line, and `Entry.text` the line as the files hold it. The edits of
  the program are patterns on this text. `Entry.contains` is the pattern without
  anchors, which finds a name in a longer one as well; `Entry.isBefore` is the
  anchored one, which finds the before lines of exactly one name
  (`isBefore_iff`).
- `depOf` reads a table of lines; the small inputs of the later files are such
  tables over the ids of `Sample`.
-/

namespace Jhalfs

/-- The characters of a page id. -/
def isIdChar (c : Char) : Bool :=
  c.isAlphanum || c == '-' || c == '_' || c == '+'

/-- The texts that are page ids: not empty, of these characters only, and not an option of a
command. -/
def isPageId (chars : List Char) : Bool :=
  !chars.isEmpty && chars.head? != some '-' && chars.all isIdChar

/-- A page id: the `<node>` of a file `<node>.dep`. That the text is one is part of the id, so
a name that would be active in a pattern cannot be built. -/
structure Id where
  chars : List Char
  valid : isPageId chars = true
  deriving DecidableEq

theorem Id.ext {m n : Id} (h : m.chars = n.chars) : m = n := by
  cases m
  cases n
  cases h
  rfl

/-- The special node whose edges are the packages the user asked for. -/
def rootId : Id := ⟨['r', 'o', 'o', 't'], rfl⟩

/-- The weight of an edge, one digit: 1 for required, 2 for recommended, 3 for
optional, 4 for external (func_dependencies:15–19). -/
structure Weight where
  val : Nat
  pos : 0 < val
  digit : val < 10
  deriving DecidableEq

namespace Weight

def required : Weight := ⟨1, by decide, by decide⟩

def recommended : Weight := ⟨2, by decide, by decide⟩

def optional : Weight := ⟨3, by decide, by decide⟩

def external : Weight := ⟨4, by decide, by decide⟩

end Weight

/-- The qualifier of an edge: before, after (runtime) or first. -/
inductive Build where
  | b
  | a
  | f
  deriving DecidableEq

/-- The letter of a qualifier in a file. -/
def Build.char : Build → Char
  | .b => 'b'
  | .a => 'a'
  | .f => 'f'

/-- A line of a file: `prio_of_dep build_of_dep id_of_dep`, that is, the weight of an edge, its
qualifier, and the package that it leads to. -/
structure Entry where
  prio : Weight
  build : Build
  id : Id
  deriving DecidableEq

namespace Entry

/-- The line as the files hold it: the digit of the weight, the letter of the qualifier and the
id, with a blank between them. -/
def text (e : Entry) : List Char :=
  [Nat.digitChar e.prio.val, ' ', e.build.char, ' '] ++ e.id.chars

/-- The address `/$id/` of `sed` and the pattern of a plain `grep`: the id
occurs somewhere in the line. -/
def contains (id : Id) (e : Entry) : Bool := decide (id.chars <:+: e.text)

/-- The pattern `^[[:digit:]]\ b\ $id\$` (func_dependencies:480). -/
def isBefore (id : Id) (e : Entry) : Bool := e.build == .b && e.id == id

theorem contains_self (e : Entry) : e.contains e.id = true := by
  rw [contains, decide_eq_true_iff, text]
  exact (List.suffix_append _ _).isInfix

theorem isBefore_iff {id : Id} {e : Entry} :
    e.isBefore id = true ↔ e.build = .b ∧ e.id = id := by
  simp [isBefore]

end Entry

/-- The line `1 b n`. -/
def required (n : Id) : Entry := ⟨.required, .b, n⟩

/-- The line `2 b n`. -/
def recommended (n : Id) : Entry := ⟨.recommended, .b, n⟩

/-- The line `3 b n`. -/
def optional (n : Id) : Entry := ⟨.optional, .b, n⟩

/-- The line `1 a n`. -/
def requiredAfter (n : Id) : Entry := ⟨.required, .a, n⟩

/-- The line `1 f n`. -/
def requiredFirst (n : Id) : Entry := ⟨.required, .f, n⟩

/-- The names a file lists, in the order of its lines; a name comes as often as it has
lines. -/
def idsOf (es : List Entry) : List Id := es.map Entry.id

@[simp] theorem idsOf_nil : idsOf [] = [] := rfl

@[simp] theorem idsOf_cons (e : Entry) (es : List Entry) :
    idsOf (e :: es) = e.id :: idsOf es := rfl

@[simp] theorem idsOf_append (es fs : List Entry) : idsOf (es ++ fs) = idsOf es ++ idsOf fs :=
  List.map_append

theorem mem_idsOf {id : Id} {es : List Entry} : id ∈ idsOf es ↔ ∃ e ∈ es, e.id = id :=
  List.mem_map

theorem mem_idsOf_filter_build {id : Id} {es : List Entry} {build : Build} :
    id ∈ idsOf (es.filter fun e => e.build == build) ↔ ∃ e ∈ es, e.build = build ∧ e.id = id := by
  rw [mem_idsOf]
  constructor
  · rintro ⟨e, he, hid⟩
    rw [List.mem_filter, beq_iff_eq] at he
    exact ⟨e, he.1, he.2, hid⟩
  · rintro ⟨e, he, hbuild, hid⟩
    exact ⟨e, List.mem_filter.mpr ⟨he, beq_iff_eq.mpr hbuild⟩, hid⟩

/-! ## Small inputs -/

namespace Sample

def u : Id := ⟨['u'], rfl⟩

def v : Id := ⟨['v'], rfl⟩

def w : Id := ⟨['w'], rfl⟩

def x : Id := ⟨['x'], rfl⟩

def y : Id := ⟨['y'], rfl⟩

def z : Id := ⟨['z'], rfl⟩

def xy : Id := ⟨['x', 'y'], rfl⟩

end Sample

/-- The lines that a table gives a node. -/
def depOf (table : List (Id × List Entry)) (n : Id) : List Entry := (table.lookup n).getD []

/-- No name comes twice. -/
def distinct : List Id → Bool
  | [] => true
  | n :: ns => !ns.contains n && distinct ns

theorem nodup_of_distinct {ns : List Id} (h : distinct ns = true) : ns.Nodup := by
  induction ns with
  | nil => exact List.nodup_nil
  | cons n ns ih =>
    rw [distinct, Bool.and_eq_true] at h
    exact List.nodup_cons.mpr ⟨by simpa using h.1, ih h.2⟩

end Jhalfs
