import Mathlib.Data.List.Sort
import Jhalfs.Base.Loop
import Jhalfs.Deps.PathTo

/-!
# The second pass: `clean_subgraph`

The second pass works on the edges (BLFS/libs/func_dependencies:226–335), in
three loops over the files:

- the edges to nodes without a file are removed (`danglingLoop`);
- for each node with `a` (after) lines, a node `<node>groupxx` is made that lists
  the node and its after dependencies, the parents that no after dependency leads
  back to are moved to it, and the `a` lines are deleted (`runtimeLoop`);
- for each node with `f` (first) lines, the target is copied to `<target>-pass1`
  without the lines that lead back to the node, and the node is moved to the copy
  (`firstLoop`).

The lines are edited with `sed` and `grep`. An id has no blank, so the patterns
that begin with one (`/\ $id\$/`) match an id exactly; the ones that do not match
more (`parentsOf`, `moveAfter`).

Each loop reads the list of its nodes before it edits a file, and the files are
listed by the shell, in the order of the locale: the order is a parameter
(`collate`), of which nothing is assumed. Inside a loop the edits of one node are
seen by the next ones. Whether an after dependency leads back to a parent is asked
of the files at that moment, with edges of weight at most 3 (`leadsBack`), and a
line of a copy is dropped if it leads back by edges no weaker than itself
(`makePass1`).
-/

namespace Jhalfs

/-! ## Names -/

theorem isPageId_append {l s : List Char} (hl : isPageId l = true) (hs : s.all isIdChar = true) :
    isPageId (l ++ s) = true := by
  cases l with
  | nil => cases hl
  | cons c l =>
    rw [isPageId, Bool.and_eq_true] at hl ⊢
    refine ⟨hl.1, ?_⟩
    rw [List.all_append, hl.2, hs]
    rfl

/-- `<node>groupxx`. -/
def Id.groupxx (n : Id) : Id where
  chars := n.chars ++ ['g', 'r', 'o', 'u', 'p', 'x', 'x']
  valid := isPageId_append n.valid (by decide)

/-- `<node>-pass1`. -/
def Id.pass1 (n : Id) : Id where
  chars := n.chars ++ ['-', 'p', 'a', 's', 's', '1']
  valid := isPageId_append n.valid (by decide)

theorem Id.groupxx_injective : Function.Injective Id.groupxx := fun _ _ h =>
  Id.ext (List.append_cancel_right (congrArg Id.chars h))

theorem Id.pass1_injective : Function.Injective Id.pass1 := fun _ _ h =>
  Id.ext (List.append_cancel_right (congrArg Id.chars h))

theorem Id.groupxx_ne (n : Id) : n.groupxx ≠ n := by
  intro h
  have := congrArg List.length (congrArg Id.chars h)
  rw [Id.groupxx, List.length_append] at this
  simp at this

theorem Id.getLast_groupxx (n : Id) : n.groupxx.chars.getLast? = some 'x' := by
  rw [Id.groupxx, List.getLast?_append]
  rfl

theorem Id.groupxx_ne_root (n : Id) : n.groupxx ≠ rootId := by
  intro h
  have := n.getLast_groupxx
  rw [h] at this
  exact absurd this (by decide)

/-! ## The edits -/

/-- `sed "/\ $id\$/d"`. -/
def deleteId (id : Id) (es : List Entry) : List Entry := es.filter fun e => e.id != id

/-- A line with another name in place of a name. -/
def Entry.rename (old new : Id) (e : Entry) : Entry :=
  if e.id = old then { e with id := new } else e

/-- `sed "s/\ $node\$/&groupxx/"`. -/
def toGroup (node : Id) (es : List Entry) : List Entry := es.map (Entry.rename node node.groupxx)

/-- The lines of `id` get the suffix `-pass1`, and `s/[[:digit:]] f /1 b /` makes
the first ones required before ones (func_dependencies:332). -/
def toPass1 (id : Id) (es : List Entry) : List Entry :=
  es.map fun e =>
    if e.id = id then
      if e.build = .f then ⟨.required, .b, id.pass1⟩ else { e with id := id.pass1 }
    else e

/-- The names on the lines of a file with a qualifier, as
`grep ' a ' $node | cut -d' ' -f3` gives them. -/
def Files.idsWith (F : Files) (build : Build) (node : Id) : List Id :=
  idsOf ((F.lines node).filter fun e => e.build == build)

/-- `*.dep`: the names in the order of the locale. -/
def Files.ls (F : Files) (collate : Id → Id → Bool) : List Id :=
  F.names.insertionSort fun a b => collate a b = true

/-- The files with a line that has a qualifier: `grep -l ' a ' *.dep`, in the order in which the
shell lists them. The list is made before the loop over it changes a file. -/
def Files.nodesWith (F : Files) (collate : Id → Id → Bool) (build : Build) : List Id :=
  (F.ls collate).filter fun n => (F.lines n).any fun e => e.build == build

section Loops

-- the locale's order of file names
variable (collate : Id → Id → Bool)

/-! ## Dangling edges -/

/-- The body of the first loop (func_dependencies:258–273): the lines for packages without a
file are deleted. -/
def removeDangling (F : Files) (node : Id) : Files :=
  if node = rootId then
    F
  else
    ((idsOf (F.lines node)).filter fun id => decide (id ∉ F.names)).foldl
      (fun F id => F.edit node (deleteId id)) F

def danglingLoop (F : Files) : Files := (F.ls collate).foldl removeDangling F

/-! ## Runtime dependencies -/

/-- An after dependency of `node` leads back to `parent` by edges of weight at most 3
(func_dependencies:280–284). The loop breaks at the first one that does. -/
def leadsBack (F : Files) (node parent : Id) : Bool :=
  (F.idsWith .a node).any fun start => pathTo F start parent 3

/-- `grep -l ${node%.dep}\$ *`: the files with a line that ends in the name. -/
def parentsOf (F : Files) (node : Id) : List Id :=
  (F.ls collate).filter fun p =>
    (F.lines p).any fun e => node.chars.isSuffixOf e.id.chars

/-- The body of the loop over the parents; the second component is `b`
(func_dependencies:279–289). -/
def redirect (node : Id) (st : Files × Bool) (parent : Id) : Files × Bool :=
  if leadsBack st.1 node parent then st else (st.1.edit parent (toGroup node), true)

/-- Make the group of a node (func_dependencies:278–291): its file is begun with the node
itself, and the lines of the parents are moved to it. -/
def makeGroup (F : Files) (node : Id) : Files :=
  let st := (parentsOf collate F node).foldl (redirect node) (F, false)
  let F := st.1.write node.groupxx [required node]
  if st.2 then F else F.append rootId (required node.groupxx)

/-- The body of the loop over the lines of `node` (func_dependencies:294–300). The
test whether the group has the dependency is `grep -q` of the bare name. -/
def moveAfter (node : Id) (F : Files) (e : Entry) : Files :=
  if e.build = .a then
    if (F.lines node.groupxx).any fun d => d.contains e.id then
      F
    else
      F.append node.groupxx { e with build := .b }
  else
    F

/-- The body of the second loop (func_dependencies:274–306): make the group, give it the after
dependencies, and delete every line of the node with the name of one. -/
def processRuntime (F : Files) (node : Id) : Files :=
  let F := if node.groupxx ∈ F.names then F else makeGroup collate F node
  (F.idsWith .a node).foldl (fun F id => F.edit node (deleteId id))
    ((F.lines node).foldl (moveAfter node) F)

def runtimeLoop (F : Files) : Files := (F.nodesWith collate .a).foldl (processRuntime collate) F

/-! ## First dependencies -/

/-- The body of the loop over the lines of `node` (func_dependencies:311–330). A first line
makes a copy of its package, if there is none yet, and takes the lines out of it that lead back
to `node`. -/
def makePass1 (node : Id) (F : Files) (e : Entry) : Files :=
  if e.build = .f then
    let F :=
      if e.id.pass1 ∈ F.names ∨ e.id ∉ F.names then F else F.write e.id.pass1 (F.lines e.id)
    let lr :=
      idsOf ((F.lines e.id.pass1).filter fun d => pathTo F d.id node d.prio.val)
    lr.foldl (fun F p => F.edit e.id.pass1 (deleteId p)) F
  else
    F

/-- The body of the third loop (func_dependencies:307–334): the copies for the first lines of a
file are made, and then these lines become lines for the copies. -/
def processFirst (F : Files) (node : Id) : Files :=
  (F.idsWith .f node).foldl (fun F id => F.edit node (toPass1 id))
    ((F.lines node).foldl (makePass1 node) F)

def firstLoop (F : Files) : Files := (F.nodesWith collate .f).foldl processFirst F

/-- `clean_subgraph`: the loop over dangling lines, the loop over after lines and the loop over
first lines, each over the files that match its pattern when it begins. -/
def cleanSubgraph (F : Files) : Files :=
  firstLoop collate (runtimeLoop collate (danglingLoop collate F))

end Loops

end Jhalfs
