import Mathlib.Data.List.Nodup
import Mathlib.Data.Set.Insert
import Mathlib.Logic.Function.Basic
import Mathlib.Logic.Relation
import Jhalfs.Deps.Entry

/-!
# The directory of `.dep` files

The first two passes work on the files `<node>.dep` of one directory
(BLFS/libs/func_dependencies:42–52): they test whether a file exists, read its
lines, write it, append to it and edit it in place.

- `Files` is such a directory. It carries that no file is there twice and that a
  node without a file has no lines, so that reading the lines of any node is
  reading its file, or nothing.
- `Files.write`, `Files.append` and `Files.edit` are the redirections and the
  `sed -i` of the functions; the `@[simp]` lemmas say what each of them does to
  the names and to the lines of one file, and that it leaves the others alone.
- `Follows`, `Path` and `DependsOn` are the edges and paths that the lines stand
  for, up to a weight or of any weight.

Between two states of the directory a path is carried over by one of three rules:
the lines of all the nodes that it can go through are still there
(`Path.of_closed`); only the lines of its last node have changed (`Path.to_end`);
or lines of one node are new, and a path that is new goes over one of them
(`Path.cases_new`).
-/

namespace Jhalfs

/-- The `.dep` files of a directory, in the order they were made. A node without
a file has no lines. -/
structure Files where
  names : List Id
  lines : Id → List Entry
  nodup : names.Nodup
  absent : ∀ n, n ∉ names → lines n = []

namespace Files

/-- The directory after `rm -f *.dep`. -/
def empty : Files where
  names := []
  lines := fun _ => []
  nodup := List.nodup_nil
  absent _ _ := rfl

/-- Write the file of `n`, new or not. -/
def write (F : Files) (n : Id) (es : List Entry) : Files where
  names := if n ∈ F.names then F.names else F.names ++ [n]
  lines := Function.update F.lines n es
  nodup := by
    split
    · exact F.nodup
    · next h =>
      exact List.nodup_append.mpr ⟨F.nodup, List.nodup_singleton n, fun a ha b hb hab =>
        h (List.mem_singleton.mp hb ▸ hab ▸ ha)⟩
  absent m hm := by
    have hne : m ≠ n := by
      rintro rfl
      split at hm
      · next h => exact hm h
      · exact hm (List.mem_append_right _ (List.mem_singleton_self m))
    rw [Function.update_of_ne hne]
    refine F.absent m fun h => hm ?_
    split
    · exact h
    · exact List.mem_append_left _ h

/-- `echo line >> <n>.dep`. -/
def append (F : Files) (n : Id) (e : Entry) : Files := F.write n (F.lines n ++ [e])

/-- `sed -i` on the file of `n`, which has to be there. -/
def edit (F : Files) (n : Id) (f : List Entry → List Entry) : Files :=
  if n ∈ F.names then F.write n (f (F.lines n)) else F

@[simp] theorem mem_names_write {F : Files} {n m : Id} {es : List Entry} :
    m ∈ (F.write n es).names ↔ m = n ∨ m ∈ F.names := by
  simp only [write]
  split
  · next h =>
    constructor
    · exact Or.inr
    · rintro (rfl | hm)
      · exact h
      · exact hm
  · rw [List.mem_append, List.mem_singleton, or_comm]

@[simp] theorem lines_write_self {F : Files} {n : Id} {es : List Entry} :
    (F.write n es).lines n = es := Function.update_self ..

theorem lines_write_of_ne {F : Files} {n m : Id} {es : List Entry} (h : m ≠ n) :
    (F.write n es).lines m = F.lines m := Function.update_of_ne h ..

@[simp] theorem mem_names_append {F : Files} {n m : Id} {e : Entry} :
    m ∈ (F.append n e).names ↔ m = n ∨ m ∈ F.names := mem_names_write

@[simp] theorem names_edit {F : Files} {n : Id} {f : List Entry → List Entry} :
    (F.edit n f).names = F.names := by
  rw [edit]
  split
  · next h => exact if_pos h
  · rfl

theorem lines_edit_self {F : Files} {n : Id} {f : List Entry → List Entry} (hf : f [] = []) :
    (F.edit n f).lines n = f (F.lines n) := by
  rw [edit]
  split
  · exact lines_write_self
  · next h => rw [F.absent n h, hf]

theorem lines_edit_of_ne {F : Files} {n m : Id} {f : List Entry → List Entry} (h : m ≠ n) :
    (F.edit n f).lines m = F.lines m := by
  rw [edit]
  split
  · exact lines_write_of_ne h
  · rfl

theorem mem_names_of_mem_lines {F : Files} {n : Id} {e : Entry} (h : e ∈ F.lines n) :
    n ∈ F.names := by
  by_contra hn
  rw [F.absent n hn] at h
  exact List.not_mem_nil h

end Files

/-! ## Paths -/

/-- There is an edge of weight at most `prio` from `a` to `b`: a line of the file of `a`, with
any qualifier. -/
def Follows (lines : Id → List Entry) (prio : Nat) (a b : Id) : Prop :=
  ∃ e ∈ lines a, e.prio.val ≤ prio ∧ e.id = b

/-- The ends of the edges that a reader of the lines follows, up to a weight. -/
def followed (prio : Nat) (es : List Entry) : Set Id :=
  {n | ∃ e ∈ es, e.prio.val ≤ prio ∧ e.id = n}

theorem followed_cons (prio : Nat) (e : Entry) (es : List Entry) :
    followed prio (e :: es) = followed prio [e] ∪ followed prio es := by
  ext n
  simp [followed]

theorem followed_nil (prio : Nat) : followed prio [] = ∅ := by
  ext n
  simp [followed]

theorem followed_singleton {prio : Nat} {e : Entry} (h : e.prio.val ≤ prio) :
    followed prio [e] = {e.id} := by
  ext n
  simp [followed, h, eq_comm]

/-- There is a path of edges of weight at most `prio`, possibly of no edge: a node leads to
itself. -/
def Path (lines : Id → List Entry) (prio : Nat) : Id → Id → Prop :=
  Relation.ReflTransGen (Follows lines prio)

/-- There is a path of edges from the first node to the second. -/
def DependsOn (dep : Id → List Entry) : Id → Id → Prop :=
  Relation.ReflTransGen fun a b => b ∈ idsOf (dep a)

theorem Follows.mono {lines : Id → List Entry} {p q : Nat} (hpq : p ≤ q) {a b : Id}
    (h : Follows lines p a b) : Follows lines q a b := by
  obtain ⟨e, he, hp, hid⟩ := h
  exact ⟨e, he, hp.trans hpq, hid⟩

theorem Path.mono {lines : Id → List Entry} {p q : Nat} (hpq : p ≤ q) {a b : Id}
    (h : Path lines p a b) : Path lines q a b :=
  Relation.ReflTransGen.mono (fun _ _ => Follows.mono hpq) _ _ h

/-- A path is one by other lines, if each node that it can go through has its lines
among them. -/
theorem Path.of_closed {lines lines' : Id → List Entry} {prio : Nat} {nodes : List Id}
    (hclosed : ∀ n ∈ nodes, ∀ e ∈ lines n, e ∈ lines' n ∧ e.id ∈ nodes) {a b : Id}
    (ha : a ∈ nodes) (h : Path lines prio a b) : Path lines' prio a b := by
  have hboth : Path lines' prio a b ∧ b ∈ nodes := by
    induction h with
    | refl => exact ⟨Relation.ReflTransGen.refl, ha⟩
    | tail _ hedge ih =>
      obtain ⟨e, he, hp, rfl⟩ := hedge
      obtain ⟨he', hid⟩ := hclosed _ ih.2 e he
      exact ⟨ih.1.tail ⟨e, he', hp, rfl⟩, hid⟩
  exact hboth.1

/-- On the way to a node its own lines are not used. -/
theorem Path.to_end {lines lines' : Id → List Entry} {prio : Nat} {a b : Id}
    (hsub : ∀ n, n ≠ b → ∀ e ∈ lines n, e ∈ lines' n) (h : Path lines prio a b) :
    Path lines' prio a b := by
  induction h using Relation.ReflTransGen.head_induction_on with
  | refl => exact Relation.ReflTransGen.refl
  | @head n m hedge _ ih =>
    by_cases hn : n = b
    · rw [hn]
      exact Relation.ReflTransGen.refl
    · obtain ⟨e, he, hp, hid⟩ := hedge
      exact ih.head ⟨e, hsub n hn e he, hp, hid⟩

/-- A path that is not one by the old lines goes over a new line. -/
theorem Path.cases_new {lines lines' : Id → List Entry} {prio : Nat} {node : Id} {new : List Id}
    (hold : ∀ n, ∀ e ∈ lines' n, e ∈ lines n ∨ (n = node ∧ e.id ∈ new)) {a b : Id}
    (h : Path lines' prio a b) :
    Path lines prio a b ∨ ∃ z ∈ new, Path lines' prio a node ∧ Path lines' prio z b := by
  induction h using Relation.ReflTransGen.head_induction_on with
  | refl => exact Or.inl Relation.ReflTransGen.refl
  | @head n m hedge hrest ih =>
    rcases ih with hpath | ⟨z, hz, hto, hfrom⟩
    · obtain ⟨e, he, hp, rfl⟩ := hedge
      rcases hold n e he with hline | ⟨rfl, hnew⟩
      · exact Or.inl (hpath.head ⟨e, hline, hp, rfl⟩)
      · exact Or.inr ⟨e.id, hnew, Relation.ReflTransGen.refl, hrest⟩
    · exact Or.inr ⟨z, hz, hto.head hedge, hfrom⟩

theorem Path.dependsOn {lines : Id → List Entry} {prio : Nat} {a b : Id}
    (h : Path lines prio a b) : DependsOn lines a b :=
  Relation.ReflTransGen.mono (fun _ _ ⟨e, he, _, hid⟩ => mem_idsOf.mpr ⟨e, he, hid⟩) _ _ h

/-- No weight is above 9, as a weight is one digit. -/
theorem path_nine_iff {lines : Id → List Entry} {a b : Id} :
    Path lines 9 a b ↔ DependsOn lines a b := by
  refine ⟨Path.dependsOn, Relation.ReflTransGen.mono ?_ _ _⟩
  intro m n hedge
  obtain ⟨e, he, hid⟩ := mem_idsOf.mp hedge
  exact ⟨e, he, Nat.le_of_lt_succ e.prio.digit, hid⟩

/-- What a closed list of nodes does not hold cannot be reached from it. With this a small
input is decided without a search. -/
theorem not_dependsOn_of_closed {lines : Id → List Entry} (nodes : List Id) {a b : Id}
    (ha : a ∈ nodes) (hclosed : ∀ n ∈ nodes, ∀ m ∈ idsOf (lines n), m ∈ nodes)
    (hb : b ∉ nodes) : ¬ DependsOn lines a b := by
  intro hpath
  refine hb ?_
  clear hb
  induction hpath with
  | refl => exact ha
  | tail _ hedge ih => exact hclosed _ ih _ hedge

end Jhalfs
