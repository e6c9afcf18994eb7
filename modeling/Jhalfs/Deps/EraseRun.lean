import Jhalfs.Deps.Erase

/-!
# The calls of `tree_erase`

`tree_erase` calls itself for the nodes that the file names (BLFS/libs/func_dependencies:
504–530). In the model of the pass it is a total function with a bound on its recursion that
is large enough. Here a call is without a result when its recursion does not come to an end
within a bound (`treeEraseRun`), so that a result says that the calls return.

- `treeEraseRun_eq`: above the height of the subtree a call has a result, the one of the
  total function. The induction is on the bound; in the loop over the names the files that
  the calls before have removed lie below the link (`Pruned`), so the tests on the links
  still mean what they should.
- `SubtreeErased` says what is asked of the result: the file of the node and the files
  strictly below it are removed, all others are as they were, and so are the `.dep` files.
- `treeEraseRun_returns`: **`tree_erase` returns, and removes exactly one subtree**, in every
  linked directory, from some bound on. The links grow along the calls, so their depth is at
  most the length of the longest one.
-/

namespace Jhalfs

/-- The loop body of `tree_erase` in the file whose link is `link`
(func_dependencies:514–527). -/
def eraseBranchRun (erase : Dir → Id → Option Dir) (link : List Nat) (d : Dir) (g : Id) :
    Option Dir :=
  match d.tree g with
  | some h => if linkTest link h.link && !linkTest h.link link then erase d g else some d
  | none => some d

/-- `tree_erase` with a bound on the depth of its recursion; `none` when the bound is too
small. -/
def treeEraseRun : Nat → Dir → Id → Option Dir
  | 0, _, _ => none
  | fuel + 1, d, file =>
    match d.tree file with
    | none => some d
    | some f =>
      ((idsOf f.entries).foldlM (eraseBranchRun (treeEraseRun fuel) f.link) d).map fun d =>
        d.removeTree file

/-- The file of the node `x` with link `r` and the files below it are removed, and nothing
else is changed. -/
structure SubtreeErased (d : Dir) (x : Id) (r : List Nat) (d' : Dir) : Prop where
  erased : ∀ n, (n = x ∨ ∃ g, d.tree n = some g ∧ r <+: g.link ∧ r ≠ g.link) → d'.tree n = none
  kept : ∀ n, ¬ (n = x ∨ ∃ g, d.tree n = some g ∧ r <+: g.link ∧ r ≠ g.link) →
    d'.tree n = d.tree n
  dep : d'.dep = d.dep

/-! ## The result of a call -/

section Loop

variable {run : Dir → Id → Option Dir} {erase : Dir → Id → Dir} {d₀ : Dir} {r : List Nat}

/-- One turn of the loop, when the recursive calls have a result. -/
theorem eraseBranchRun_eq (hr : r ≠ [])
    (hrun : ∀ (d : Dir) (x : Id) (f : TreeFile), Pruned r d₀ d → d.tree x = some f →
      r <+: f.link → r ≠ f.link → run d x = some (erase d x))
    {d : Dir} (hd : Pruned r d₀ d) (x : Id) :
    eraseBranchRun run r d x = some (eraseBranch erase r d x) := by
  unfold eraseBranchRun eraseBranch
  cases hx : d.tree x with
  | none => rfl
  | some f =>
    dsimp only
    by_cases htest : (linkTest r f.link && !linkTest f.link r) = true
    · obtain ⟨hpre, hne⟩ := (belowTest_iff hr hd.linked hx).mp htest
      rw [if_pos htest, if_pos htest, hrun d x f hd hx hpre hne]
    · rw [if_neg htest, if_neg htest]

/-- The loop of one call. What it has pruned so far keeps the tests meaningful. -/
theorem eraseLoopRun_eq (hr : r ≠ [])
    (hrun : ∀ (d : Dir) (x : Id) (f : TreeFile), Pruned r d₀ d → d.tree x = some f →
      r <+: f.link → r ≠ f.link → run d x = some (erase d x))
    (herase : ∀ (d : Dir) (x : Id) (f : TreeFile), Pruned r d₀ d → d.tree x = some f →
      r <+: f.link → r ≠ f.link → erase d x = d.eraseUnder f.link)
    (ids : List Id) {d : Dir} (hd : Pruned r d₀ d) :
    ids.foldlM (eraseBranchRun run r) d = some (ids.foldl (eraseBranch erase r) d) := by
  induction ids generalizing d with
  | nil => rfl
  | cons x ids ih =>
    rw [List.foldlM_cons, eraseBranchRun_eq hr hrun hd, List.foldl_cons]
    exact ih (eraseBranch_spec hr herase hd x).1

end Loop

/-- Above the height of the subtree the bound does not matter. -/
theorem treeEraseRun_eq {fuel : Nat} {d : Dir} {x : Id} {f : TreeFile} (hd : Linked d)
    (hx : d.tree x = some f)
    (hfuel : ∀ n g, d.tree n = some g → f.link <+: g.link → g.link.length < f.link.length + fuel) :
    treeEraseRun fuel d x = some (treeEraseAux fuel d x) := by
  induction fuel generalizing d x f with
  | zero =>
    have := hfuel x f hx List.prefix_rfl
    omega
  | succ fuel ih =>
    have hloop := eraseLoopRun_eq (hd.nonempty x f hx)
      (fun d' y g hd' hy hpre hne => ih hd'.linked hy (height_below hd' hfuel hpre hne))
      (fun d' y g hd' hy hpre hne =>
        treeEraseAux_eq fuel d' y g hd'.linked hy (height_below hd' hfuel hpre hne))
      (idsOf f.entries) (Pruned.refl hd)
    rw [treeEraseRun, treeEraseAux, hx]
    dsimp only
    rw [hloop]
    rfl

theorem subtreeErased_eraseUnder {d : Dir} (h : Linked d) {x : Id} {f : TreeFile}
    (hx : d.tree x = some f) : SubtreeErased d x f.link (d.eraseUnder f.link) where
  erased n hn := by
    rw [Option.eq_none_iff_forall_ne_some]
    intro g hg
    obtain ⟨hg, hnot⟩ := eraseUnder_tree_eq_some.mp hg
    rcases hn with rfl | ⟨t, ht, hpre, -⟩
    · rw [hx] at hg
      cases hg
      exact hnot List.prefix_rfl
    · rw [ht] at hg
      cases hg
      exact hnot hpre
  kept n hn := by
    rw [not_or] at hn
    ext g
    rw [eraseUnder_tree_eq_some, and_iff_left_iff_imp]
    -- with the link of `x` it would be `x`
    intro hg hpre
    exact hn.2 ⟨g, hg, hpre, fun heq => hn.1 (h.inj x n f g hx hg heq).symm⟩
  dep := rfl

/-- **`tree_erase` removes exactly one subtree**: every call on a node of a linked directory
returns, from some bound on, and leaves all other files as they were. -/
theorem treeEraseRun_returns (d : Dir) (h : Linked d) (x : Id) (f : TreeFile)
    (hx : d.tree x = some f) :
    ∃ depth, ∀ fuel, depth ≤ fuel → ∃ d', treeEraseRun fuel d x = some d' ∧
      SubtreeErased d x f.link d' := by
  refine ⟨d.maxLink + 1, fun fuel hfuel => ⟨d.eraseUnder f.link, ?_, ?_⟩⟩
  · have hheight : ∀ n g, d.tree n = some g → f.link <+: g.link →
        g.link.length < f.link.length + fuel := by
      intro n g hn _
      have := length_le_maxLink h hn
      omega
    rw [treeEraseRun_eq h hx hheight, treeEraseAux_eq fuel d x f h hx hheight]
  · exact subtreeErased_eraseUnder h hx

/-! A directory with the nodes `a` and, below it, `c`, and with `b` beside them. The file of
`a` still names the root, `b` and a node without a file. -/

def idA : Id := ⟨"a".toList, by decide⟩

def idB : Id := ⟨"b".toList, by decide⟩

def idC : Id := ⟨"c".toList, by decide⟩

def fileA : TreeFile :=
  ⟨[1, 1], [1], [⟨.required, .b, rootId⟩, ⟨.optional, .b, idB⟩, ⟨.required, .a, idC⟩,
    ⟨.required, .b, ⟨"d".toList, by decide⟩⟩]⟩

def branchFiles : List (Id × TreeFile) :=
  [(rootId, ⟨[1], [], [⟨.required, .b, idA⟩, ⟨.required, .b, idB⟩]⟩), (idA, fileA),
    (idB, ⟨[1, 2], [], []⟩), (idC, ⟨[1, 1, 1], [], []⟩)]

def branchDir : Dir where
  names := branchFiles.map Prod.fst
  dep _ := []
  tree n := branchFiles.lookup n

theorem mem_branchFiles {n : Id} {f : TreeFile} (h : branchDir.tree n = some f) :
    (n, f) ∈ branchFiles := by
  obtain ⟨before, after, heq, -⟩ := List.lookup_eq_some_iff.mp h
  rw [heq]
  exact List.mem_append_right _ List.mem_cons_self

theorem linked_branchDir : Linked branchDir where
  mem n f h := List.mem_map_of_mem (f := Prod.fst) (mem_branchFiles h)
  nonempty n f h := by
    have hall : ∀ p ∈ branchFiles, p.2.link ≠ [] := by decide
    exact hall _ (mem_branchFiles h)
  inj m n f g hm hn hlink := by
    have hall : ∀ p ∈ branchFiles, ∀ q ∈ branchFiles, p.2.link = q.2.link → p.1 = q.1 := by decide
    exact hall _ (mem_branchFiles hm) _ (mem_branchFiles hn) hlink
  parent n f h hroot := by
    have hall : ∀ p ∈ branchFiles, p.1 ≠ rootId → ∃ q ∈ branchFiles, ∃ k ∈ [1, 2],
        branchDir.tree q.1 = some q.2 ∧ p.2.link = q.2.link ++ [k] ∧ p.1 ∈ idsOf q.2.entries := by
      decide
    obtain ⟨q, -, k, -, htree, hlink, hmem⟩ := hall _ (mem_branchFiles h) hroot
    exact ⟨q.1, q.2, k, htree, hlink, hmem⟩

/-- `a` and `c` are removed. -/
theorem branchDir_erased : ∃ depth, ∀ fuel, depth ≤ fuel → ∃ d',
    treeEraseRun fuel branchDir idA = some d' ∧ SubtreeErased branchDir idA [1, 1] d' :=
  treeEraseRun_returns branchDir linked_branchDir idA fileA (by decide)

end Jhalfs
