import Jhalfs.Base.Machine
import Jhalfs.Deps.Files

/-!
# The third pass: `generate_dependency_tree`, `tree_erase`, `tree_browse`

The third pass removes the cycles of the graph and lays it out as a tree of
`.tree` files (BLFS/libs/func_dependencies:338–530). A `.tree` file begins with
the *link* of its node, the positions that lead to it from the root, and, unless
the node is a leaf, with a line of the weights met on the way; then it holds the
lines of the `.dep` file.

- `Dir` is the directory, with the operations of the functions on it: `deleteDep`
  is the `sed "/$id/d"`, `appendLine` the two `echo … >>` of an exchange,
  `findParent` the `grep` for the file of the parent.
- `linkTest` compares two links as texts: one node is above the other.
- `treeErase` removes a subtree, `Dir.list` is what `tree_browse root.tree`
  prints, and `cleanUp` is the loop over `lines_to_remove`.
- `generateDependencyTree` is one step of the recursion, and `DepFiles.Reaches`
  the states of a run from the `.dep` files that the pass starts from.

The recursion works on files that its callers are still reading, so its state is
kept as a machine (`Config`): the directory, the frame that runs, and the frames
of the callers, each stopped at the entry whose subtree is being built. A frame
reads the lines of its own `.tree` file one by one; a line appended to the file
while the frame waits is read later, as with the shell's open file. (No active
frame's file is ever removed or rewritten under it: `Inv.current` and
`Inv.waiting`.) A return value other than 0 backs up through the callers until
one of them is at an edge of that weight, and exchanges it.
-/

namespace Jhalfs

/-- A `.tree` file. A leaf has no line of weights and no entries; `link = []`
stands for a file without any line. -/
structure TreeFile where
  link : List Nat
  priolink : List Nat
  entries : List Entry
  deriving DecidableEq

/-- The directory the pass works in: the `.dep` files and, for the nodes that are in
the tree, the `.tree` files. `names` lists the nodes whose files it may hold. -/
structure Dir where
  names : List Id
  dep : Id → List Entry
  tree : Id → Option TreeFile

namespace Dir

/-- The entries the file `<file>.tree` holds now; none when there is no such file. -/
def entriesOf (d : Dir) (file : Id) : List Entry :=
  match d.tree file with
  | some f => f.entries
  | none => []

def setTree (d : Dir) (file : Id) (f : TreeFile) : Dir :=
  { d with tree := Function.update d.tree file (some f) }

/-- `rm -f <file>.tree`. -/
def removeTree (d : Dir) (file : Id) : Dir :=
  { d with tree := Function.update d.tree file none }

/-- `sed -i "/$id/d" <file>.dep` (func_dependencies:419, 452). -/
def deleteDep (d : Dir) (file id : Id) : Dir :=
  { d with dep := Function.update d.dep file ((d.dep file).filter fun e => !e.contains id) }

/-- The two `echo ... >>` that give the parent a new child
(func_dependencies:453–456). -/
def appendLine (d : Dir) (file : Id) (e : Entry) : Dir :=
  { d with
    dep := Function.update d.dep file (d.dep file ++ [e])
    tree := Function.update d.tree file
      ((d.tree file).map fun f => { f with entries := f.entries ++ [e] }) }

end Dir

/-! ## Links -/

/-- `[[ ${root#"${other} "} != ${root} ]]` on two links, each with a blank after
its last number (func_dependencies:410, 523). -/
def linkTest (other root : List Nat) : Bool :=
  (Text.numberLine other).isPrefixOf (Text.numberLine root)

/-- A line of the file is exactly `t`: the link or the line of weights. -/
def TreeFile.hasLine (t : List Nat) (f : TreeFile) : Bool :=
  t != [] && (f.link == t || f.priolink == t)

/-- `grep ^"${otherlink[*]}"\$ -l *` (func_dependencies:424). -/
def Dir.findParent (d : Dir) (t : List Nat) : List Id :=
  d.names.filter fun n =>
    match d.tree n with
    | some f => f.hasLine t
    | none => false

/-- The loop over `priolink[i]` for `i` from `start` to `depth - 1`: the lowest
priority has the highest number (func_dependencies:412–416). -/
def lowestPriority (start depth : Nat) (priolink : List Nat) : Nat :=
  ((priolink.take depth).drop start).foldl max 0

/-! ## Erasing a subtree -/

/-- The loop body of `tree_erase` in the file whose link is `link`: recurse into
`g` if it is in this branch and is not an ancestor (func_dependencies:514–527). -/
def eraseBranch (erase : Dir → Id → Dir) (link : List Nat) (d : Dir) (g : Id) : Dir :=
  match d.tree g with
  | some h => if linkTest link h.link && !linkTest h.link link then erase d g else d
  | none => d

/-- `tree_erase` with a bound on the depth of its recursion. A link gets longer with each call,
so the bound that `treeErase` gives is never reached. -/
def treeEraseAux : Nat → Dir → Id → Dir
  | 0, d, _ => d
  | fuel + 1, d, file =>
    match d.tree file with
    | none => d
    | some f =>
      ((idsOf f.entries).foldl (eraseBranch (treeEraseAux fuel) f.link) d).removeTree file

/-- The length of the longest link in the directory. -/
def Dir.maxLink (d : Dir) : Nat :=
  (d.names.map fun n =>
    match d.tree n with
    | some f => f.link.length
    | none => 0).foldr max 0

/-- `tree_erase` (func_dependencies:504–530). The links grow along its calls, so
the longest one bounds their depth (`treeEraseAux_eq`). -/
def treeErase (d : Dir) (file : Id) : Dir := treeEraseAux (d.maxLink + 1) d file

/-! ## Printing the list -/

/-- The loop body of `tree_browse` at the entry `e`. -/
def browseEntry (browse : Id → Option (List Id)) (d : Dir) (e : Entry) : Option (List Id) :=
  if d.entriesOf e.id ≠ [] then (browse e.id).map (· ++ [e.id]) else some [e.id]

/-- `tree_browse` (func_dependencies:488–501), with a bound on the depth of its
recursion; `none` when the bound is too small. -/
def treeBrowse : Nat → Dir → Id → Option (List Id)
  | 0, _, _ => none
  | fuel + 1, d, file =>
    ((d.entriesOf file).mapM (browseEntry (treeBrowse fuel d) d)).map List.flatten

/-- `LIST="$(tree_browse root.tree)"` (gen_pkg_book.sh:180). The links grow along
the calls of `tree_browse`, so the longest one bounds their depth
(`Finished.list`). -/
def Dir.list (d : Dir) : Option (List Id) := treeBrowse (d.maxLink + 1) d rootId

/-! ## The clean-up loop -/

/-- Delete the last line of the form `w b id`; `none` when there is none. -/
def removeLast (id : Id) : List Entry → Option (List Entry)
  | [] => none
  | e :: es =>
    match removeLast id es with
    | some es' => some (e :: es')
    | none => if e.isBefore id then some es else none

/-- The loop over `lines_to_remove` (func_dependencies:479–482). Without a line
number `sed -i d` deletes every line of the file. -/
def cleanUp (f : TreeFile) : List Id → TreeFile
  | [] => f
  | id :: ids =>
    match removeLast id f.entries with
    | some es => cleanUp { f with entries := es } ids
    | none => cleanUp ⟨[], [], []⟩ ids

/-! ## The recursion -/

/-- The local variables of one call of `generate_dependency_tree`: the file that it
reads, its first two lines, the number of entries read so far, and the names
recorded for the clean-up. -/
structure Frame where
  file : Id
  rootlink : List Nat
  priolink : List Nat
  count : Nat
  linesToRemove : List Id
  deriving DecidableEq

/-- What the machine does next: run a frame, hand a return value to the caller,
or nothing after `exit 1`. -/
inductive Ctl where
  | run (fr : Frame)
  | ret (p2 : Nat)
  | exit
  deriving DecidableEq

/-- A state of the pass. The callers come innermost first, each with the entry
it is at; `parentNode` holds the words of the global variable. -/
structure Config where
  dir : Dir
  ctl : Ctl
  callers : List (Frame × Entry)
  parentNode : List Id

/-- The call `generate_dependency_tree <file>.tree`: read the first two lines, the link and the
weights; the lines of the entries are read one by one later. -/
def Frame.open (file : Id) (f : TreeFile) : Frame :=
  { file := file, rootlink := f.link, priolink := f.priolink, count := 0, linesToRemove := [] }

/-- The clean-up of the frame's own file at the end of its loop: for each line that was not
kept, the last line with its package is deleted from the `.tree` file. -/
def Dir.cleanTree (d : Dir) (fr : Frame) : Dir :=
  match d.tree fr.file with
  | some f => d.setTree fr.file (cleanUp f fr.linesToRemove)
  | none => d

/-- The body of the loop at the entry `e`, which `fr` has just read and counted
(func_dependencies:400–467). -/
def visit (c : Config) (fr : Frame) (e : Entry) : Config :=
  match c.dir.tree e.id with
  | some other =>
    if other.link = [] then { c with ctl := .exit }
    else if linkTest other.link fr.rootlink then
      let p2 := lowestPriority other.link.length fr.rootlink.length fr.priolink
      if p2 ≤ e.prio.val then
        { c with
          dir := c.dir.deleteDep fr.file e.id
          ctl := .run { fr with linesToRemove := fr.linesToRemove ++ [e.id] } }
      else
        { c with parentNode := c.dir.findParent other.link.dropLast, ctl := .ret p2 }
    else
      { c with ctl := .run { fr with linesToRemove := fr.linesToRemove ++ [e.id] } }
  | none =>
    if c.dir.dep e.id ≠ [] then
      let f : TreeFile :=
        ⟨fr.rootlink ++ [fr.count], fr.priolink ++ [e.prio.val], c.dir.dep e.id⟩
      { c with
        dir := c.dir.setTree e.id f
        ctl := .run (Frame.open e.id f)
        callers := (fr, e) :: c.callers }
    else
      { c with
        dir := c.dir.setTree e.id ⟨fr.rootlink ++ [fr.count], [], []⟩
        ctl := .run fr }

/-- A frame after the exchange of the entry `e`: erase its subtree, and make it
a child of the parent of the cycle (func_dependencies:448–457). The redirections
write nothing unless `parentNode` is one word. -/
def exchange (d : Dir) (parentNode : List Id) (fr : Frame) (e : Entry) : Dir :=
  let d := (treeErase d e.id).deleteDep fr.file e.id
  match parentNode with
  | [p] => d.appendLine p { e with build := .b }
  | _ => d

/-- One step of `generate_dependency_tree` (func_dependencies:339–484): the call that is active
reads one line of its file, or the call that waits takes the value that has been returned. There
is no step when the first call has returned, or the program has ended. -/
def generateDependencyTree (c : Config) : Option Config :=
  match c.ctl with
  | .exit => none
  | .run fr =>
    match (c.dir.entriesOf fr.file)[fr.count]? with
    | some e => some (visit c { fr with count := fr.count + 1 } e)
    | none => some { c with dir := c.dir.cleanTree fr, ctl := .ret 0 }
  | .ret p2 =>
    match c.callers with
    | [] => none
    | (fr, e) :: callers =>
      if p2 = 0 then some { c with ctl := .run fr, callers := callers }
      else if p2 = e.prio.val then
        some
          { c with
            dir := exchange c.dir c.parentNode fr e
            ctl := .run { fr with linesToRemove := fr.linesToRemove ++ [e.id] }
            callers := callers }
      else some { c with callers := callers }

/-! ## The input -/

/-- The `.dep` files the pass starts from: the special node root and the
packages, with only `b` edges and every target having a `.dep` file. An edge may
lead back to root, whose file is there as well. -/
structure DepFiles where
  pkgs : List Id
  dep : Id → List Entry
  nodup : pkgs.Nodup
  root_notMem : rootId ∉ pkgs
  target : ∀ n ∈ rootId :: pkgs, ∀ e ∈ dep n, e.id ∈ rootId :: pkgs
  before : ∀ n ∈ rootId :: pkgs, ∀ e ∈ dep n, e.build = .b

namespace DepFiles

/-- Every package can be reached from root, by the lines of the `.dep` files as the pass finds
them. -/
def AllReachable (G : DepFiles) : Prop := ∀ n ∈ G.pkgs, DependsOn G.dep rootId n

/-- `root.tree`: link 1, priolink 1, then the lines of `root.dep`
(gen_pkg_book.sh:172–174). -/
def rootTree (G : DepFiles) : TreeFile := ⟨[1], [1], G.dep rootId⟩

/-- The call `generate_dependency_tree root.tree 1`. -/
def start (G : DepFiles) : Config where
  dir :=
    { names := rootId :: G.pkgs
      dep := G.dep
      tree := fun n => if n = rootId then some G.rootTree else none }
  ctl := .run (Frame.open rootId G.rootTree)
  callers := []
  parentNode := []

/-- The states of the run: what the machine comes to from the call, in any number of
steps. -/
def Reaches (G : DepFiles) (c : Config) : Prop :=
  Machine.Steps generateDependencyTree G.start c

/-- The top-level call has returned 0 and left the directory `d`. What
`generate_dependency_tree` leaves is this directory, and `tree_browse` reads it. -/
def Returns (G : DepFiles) (d : Dir) : Prop :=
  ∃ c, G.Reaches c ∧ c.ctl = .ret 0 ∧ c.callers = [] ∧ c.dir = d

end DepFiles

end Jhalfs
