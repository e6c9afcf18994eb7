import Jhalfs.Deps.CleanUp
import Jhalfs.Deps.Erase

/-!
# The invariant of the third pass

What holds at every state of a run of `generate_dependency_tree`, in words:

- the `.tree` files are linked, and the callers sit on the path of links that
  leads to the call that runs or has just returned (`OnPath`);
- each frame has tagged the entries it has read: its children in the directory
  are the kept ones, and `lines_to_remove` holds the others (`Opened`,
  `Children`);
- a node is *settled* when it lies in a finished branch, left of the path or
  below it. A settled node's file lists its children, and each line of its
  `.dep` file names a settled node that comes before it in post-order;
- a line of an active node's `.dep` file is still to be read, is the one being
  built, or names a settled node that no later back-up can erase;
- a return value other than 0 is the lowest priority on the path from the start
  of the cycle down to the call that returned, so a caller on the cycle will
  match it (`BackingUp`).

The parameter `strict` switches on the one clause that needs a condition on the
run: that no frame keeps an entry after it removed one of the same name.

The invariant is made of one structure for each part of the state: `DirOk` for
the files, `Running` for the frame that reads, `Waiting` for a frame that has
called, `Waits` for all of them, and `Inv` for the whole. The second half of the
file draws the facts about links from it that the moves need: where a node can
be (`Waits.cases`), and how long the links and the lines of weights are.
-/

namespace Jhalfs

open Position

/-- The link of a node, when it has a `.tree` file. -/
def Dir.linkOf (d : Dir) (n : Id) : Option (List Nat) := (d.tree n).map TreeFile.link

theorem linkOf_eq_some {d : Dir} {n : Id} {l : List Nat} :
    d.linkOf n = some l ↔ ∃ f, d.tree n = some f ∧ f.link = l := by
  rw [Dir.linkOf, Option.map_eq_some_iff]

theorem linkOf_of_tree {d : Dir} {n : Id} {f : TreeFile} (h : d.tree n = some f) :
    d.linkOf n = some f.link := linkOf_eq_some.mpr ⟨f, h, rfl⟩

theorem Linked.linkOf_inj {d : Dir} (h : Linked d) {m n : Id} {l : List Nat}
    (hm : d.linkOf m = some l) (hn : d.linkOf n = some l) : m = n := by
  obtain ⟨f, hf, hfl⟩ := linkOf_eq_some.mp hm
  obtain ⟨g, hg, hgl⟩ := linkOf_eq_some.mp hn
  exact h.inj m n f g hf hg (hfl.trans hgl.symm)

/-! ## The path of the callers -/

/-- The node that the innermost caller is building; the root without a caller. -/
def calleeFile : List (Frame × Entry) → Id
  | [] => rootId
  | x :: _ => x.2.id

/-- The link of that node: where the tree is growing. -/
def calleeLink : List (Frame × Entry) → List Nat
  | [] => [1]
  | x :: _ => x.1.rootlink ++ [x.1.count]

/-- Its line of weights. -/
def calleePrio : List (Frame × Entry) → List Nat
  | [] => [1]
  | x :: _ => x.1.priolink ++ [x.2.prio.val]

/-- The frame is the call that the innermost of `cs` has made: its file and its links are those that
this call has handed to it. -/
structure OnPath (fr : Frame) (cs : List (Frame × Entry)) : Prop where
  file : fr.file = calleeFile cs
  rootlink : fr.rootlink = calleeLink cs
  priolink : fr.priolink = calleePrio cs

/-- `l` lies in a branch that one of the waiting calls has finished. -/
def EarlierBranch (cs : List (Frame × Entry)) (l : List Nat) : Prop :=
  ∃ x ∈ cs, ∃ k rest, k < x.1.count ∧ l = x.1.rootlink ++ k :: rest

theorem earlierBranch_cons {x : Frame × Entry} {cs : List (Frame × Entry)} {l : List Nat} :
    EarlierBranch (x :: cs) l ↔
      (∃ k rest, k < x.1.count ∧ l = x.1.rootlink ++ k :: rest) ∨ EarlierBranch cs l := by
  simp [EarlierBranch]

theorem not_earlierBranch_nil (l : List Nat) : ¬ EarlierBranch [] l := by
  rintro ⟨x, hx, -⟩
  cases hx

/-- The finished branches: those of the waiting calls, and what lies below the
call that runs or has returned 0. -/
def Settled (c : Config) (l : List Nat) : Prop :=
  EarlierBranch c.callers l ∨ calleeLink c.callers <+: l ∧
    match c.ctl with
    | .run _ => l ≠ calleeLink c.callers
    | .ret p2 => p2 = 0
    | .exit => False

/-! ## What a frame knows -/

/-- The children of the node with link `l` are the kept entries, numbered by
their lines. -/
def Children (d : Dir) (l : List Nat) (T : List (Entry × Bool)) : Prop :=
  ∀ n k, d.linkOf n = some (l ++ [k]) ↔
    ∃ i e, k = i + 1 ∧ T[i]? = some (e, true) ∧ e.id = n

/-- The frame's file, and the tags of the entries it has dealt with: the entries are
the first ones of the file, and those recorded for the clean-up have one tag. -/
structure Opened (d : Dir) (fr : Frame) (t : TreeFile) (T : List (Entry × Bool)) : Prop where
  tree : d.tree fr.file = some t
  link : t.link = fr.rootlink
  priolink : t.priolink = fr.priolink
  read : T.map Prod.fst <+: t.entries
  removed : fr.linesToRemove = idsOf (droppedOf T)

/-- A frame that is about to read its next entry. Its children are the entries it has
kept, and each line of its `.dep` file is still to be read or names a node that no
back-up through this frame can erase. -/
structure Running (d : Dir) (fr : Frame) (cs : List (Frame × Entry)) (t : TreeFile)
    (T : List (Entry × Bool)) : Prop extends Opened d fr t T where
  count : T.length = fr.count
  children : Children d fr.rootlink T
  deps : ∀ x ∈ d.dep fr.file, x.id ∈ idsOf (t.entries.drop fr.count) ∨
    ∃ l, d.linkOf x.id = some l ∧
      (EarlierBranch cs l ∨ fr.rootlink <+: l ∧ l ≠ fr.rootlink)

/-- A frame that waits for the subtree of the entry `e`, which counts as kept for the
time being: an exchange will erase its subtree and record it as removed. -/
structure Waiting (d : Dir) (fr : Frame) (e : Entry) (cs : List (Frame × Entry)) (t : TreeFile)
    (T : List (Entry × Bool)) : Prop extends Opened d fr t T where
  count : T.length + 1 = fr.count
  at_entry : (T.map Prod.fst) ++ [e] <+: t.entries
  children : Children d fr.rootlink (T ++ [(e, true)])
  deps : ∀ x ∈ d.dep fr.file, x.id ∈ idsOf (t.entries.drop fr.count) ∨ x.id = e.id ∨
    ∃ l, d.linkOf x.id = some l ∧ EarlierBranch ((fr, e) :: cs) l

/-- All the callers wait, each on the path of the next one out: the links along the
list are those of one branch, from the call back to the root. -/
def Waits (d : Dir) : List (Frame × Entry) → Prop
  | [] => True
  | x :: cs => OnPath x.1 cs ∧ (∃ t T, Waiting d x.1 x.2 cs t T) ∧ Waits d cs

/-- The file of a settled node lists its children: as a multiset always, and in the
order in which they were built under `strict`. -/
def Tidy (strict : Prop) (d : Dir) (t : TreeFile) : Prop :=
  ∃ T, (idsOf t.entries).Perm (idsOf (keptOf T)) ∧ (strict → t.entries = keptOf T) ∧
    Children d t.link T

/-- A back-up with the value `p2`: the cycle starts at depth `m`, and `p2` is
the lowest priority on the path below that. -/
structure BackingUp (c : Config) (p2 m : Nat) : Prop where
  start : 1 ≤ m
  inner : m ≤ c.callers.length
  highest : ∀ w ∈ (calleePrio c.callers).drop m, w ≤ p2
  attained : p2 ∈ (calleePrio c.callers).drop m
  parent : c.parentNode = c.dir.findParent ((calleeLink c.callers).take (m - 1))

/-- The files hold only lines that the pass understands: before lines of nodes that
have a file. The `.tree` files are linked, and the root is at the link `1`. -/
structure DirOk (G : DepFiles) (d : Dir) : Prop where
  names : d.names = rootId :: G.pkgs
  dep : ∀ n ∈ d.names, ∀ e ∈ d.dep n, e.build = .b ∧ e.id ∈ d.names
  entries : ∀ n t, d.tree n = some t → ∀ e ∈ t.entries, e.build = .b ∧ e.id ∈ d.names
  linked : Linked d
  root : d.linkOf rootId = some [1]

/-- The invariant of the pass. What is said of the call that runs or has returned
depends on the control: a frame that reads, or a back-up that is on its way; an
`exit` is excluded. The last clause is what `tree_browse` will need: of the nodes
that are settled, the lines that are left and the children. -/
structure Inv (G : DepFiles) (strict : Prop) (c : Config) : Prop where
  dir : DirOk G c.dir
  waiting : Waits c.dir c.callers
  current : match c.ctl with
    | .run fr => OnPath fr c.callers ∧ ∃ t T, Running c.dir fr c.callers t T
    | .ret p2 => p2 ≠ 0 → ∃ m, BackingUp c p2 m
    | .exit => False
  settled : ∀ u t, c.dir.tree u = some t → Settled c t.link →
    (∀ e ∈ c.dir.dep u, ∃ l, c.dir.linkOf e.id = some l ∧ Settled c l ∧ Before l t.link) ∧
      Tidy strict c.dir t

/-! ## The path -/

section Path

variable {d : Dir} {cs : List (Frame × Entry)}

theorem Waits.onPath (h : Waits d cs) {x : Frame × Entry} (hx : x ∈ cs) :
    ∃ t T outer, x :: outer <:+ cs ∧ OnPath x.1 outer ∧ Waiting d x.1 x.2 outer t T := by
  induction cs with
  | nil => cases hx
  | cons y cs ih =>
    obtain ⟨hpath, ⟨t, T, hT⟩, hrest⟩ := h
    rcases List.mem_cons.mp hx with rfl | hx
    · exact ⟨t, T, cs, List.suffix_rfl, hpath, hT⟩
    · obtain ⟨t', T', outer, hsuf, hpath', hT'⟩ := ih hrest hx
      exact ⟨t', T', outer, hsuf.trans (List.suffix_cons y cs), hpath', hT'⟩

/-- A waiting call has built its way down to the callee. -/
theorem Waits.prefix_callee (h : Waits d cs) {x : Frame × Entry} (hx : x ∈ cs) :
    x.1.rootlink ++ [x.1.count] <+: calleeLink cs := by
  induction cs with
  | nil => cases hx
  | cons y cs ih =>
    obtain ⟨hpath, -, hrest⟩ := h
    rcases List.mem_cons.mp hx with rfl | hx
    · exact List.prefix_rfl
    · have := ih hrest hx
      rw [← hpath.rootlink] at this
      exact this.trans (List.prefix_append _ _)

theorem Waits.rootlink_above (h : Waits d cs) {x : Frame × Entry} (hx : x ∈ cs) :
    x.1.rootlink <+: calleeLink cs :=
  (List.prefix_append _ _).trans (h.prefix_callee hx)

theorem Waits.rootlink_ne (h : Waits d cs) {x : Frame × Entry} (hx : x ∈ cs) :
    x.1.rootlink ≠ calleeLink cs := by
  intro he
  have := (h.prefix_callee hx).length_le
  rw [← he, List.length_append, List.length_singleton] at this
  omega

theorem Waits.linkOf (h : Waits d cs) {x : Frame × Entry} (hx : x ∈ cs) :
    d.linkOf x.1.file = some x.1.rootlink := by
  obtain ⟨t, T, outer, -, -, hT⟩ := h.onPath hx
  exact linkOf_eq_some.mpr ⟨t, hT.tree, hT.link⟩

theorem Waits.tree_ne_none (h : Waits d cs) {x : Frame × Entry} (hx : x ∈ cs) :
    d.tree x.1.file ≠ none := by
  obtain ⟨f, hf, -⟩ := linkOf_eq_some.mp (h.linkOf hx)
  rw [hf]
  exact Option.some_ne_none f

/-- A finished branch lies left of the path. -/
theorem EarlierBranch.leftOf (h : Waits d cs) {l : List Nat}
    (hl : EarlierBranch cs l) : LeftOf l (calleeLink cs) := by
  obtain ⟨x, hx, k, rest, hk, rfl⟩ := hl
  obtain ⟨s, hs⟩ := h.prefix_callee hx
  rw [← hs, List.append_assoc]
  exact leftOf_append hk

theorem EarlierBranch.not_below (h : Waits d cs) {l : List Nat}
    (hl : EarlierBranch cs l) : ¬ calleeLink cs <+: l :=
  fun hpre => not_leftOf_of_below hpre (hl.leftOf h)

theorem EarlierBranch.ne_rootlink (h : Waits d cs) {l : List Nat}
    (hl : EarlierBranch cs l) {x : Frame × Entry} (hx : x ∈ cs) : l ≠ x.1.rootlink := by
  rintro rfl
  exact not_leftOf_of_above (h.rootlink_above hx) (hl.leftOf h)

theorem length_calleeLink (h : Waits d cs) :
    (calleeLink cs).length = cs.length + 1 := by
  induction cs with
  | nil => rfl
  | cons x cs ih =>
    obtain ⟨hpath, -, hrest⟩ := h
    rw [calleeLink, List.length_append, hpath.rootlink, ih hrest]
    rfl

theorem length_calleePrio (h : Waits d cs) :
    (calleePrio cs).length = cs.length + 1 := by
  induction cs with
  | nil => rfl
  | cons x cs ih =>
    obtain ⟨hpath, -, hrest⟩ := h
    rw [calleePrio, List.length_append, hpath.priolink, ih hrest]
    rfl

theorem OnPath.length_rootlink {fr : Frame} (h : OnPath fr cs) (hw : Waits d cs) :
    fr.rootlink.length = cs.length + 1 := by
  rw [h.rootlink, length_calleeLink hw]

theorem OnPath.length_priolink {fr : Frame} (h : OnPath fr cs) (hw : Waits d cs) :
    fr.priolink.length = cs.length + 1 := by
  rw [h.priolink, length_calleePrio hw]

/-- The callee and its callers, by the length of their links. -/
theorem Waits.exists_depth (h : Waits d cs) {m : Nat} (h0 : 0 < m)
    (hm : m ≤ cs.length) : ∃ x ∈ cs, x.1.rootlink = (calleeLink cs).take m := by
  induction cs with
  | nil =>
    rw [List.length_nil] at hm
    omega
  | cons x cs ih =>
    obtain ⟨hpath, -, hrest⟩ := h
    have hlen : x.1.rootlink.length = cs.length + 1 := hpath.length_rootlink hrest
    rw [calleeLink, List.take_append_of_le_length (by rw [hlen]; exact hm)]
    by_cases hlast : m = cs.length + 1
    · exact ⟨x, List.mem_cons_self, by rw [hlast, ← hlen, List.take_length]⟩
    · have hm' : m ≤ cs.length := by
        rw [List.length_cons] at hm
        omega
      obtain ⟨y, hy, hlink⟩ := ih hrest hm'
      exact ⟨y, List.mem_cons_of_mem _ hy, by rw [hlink, hpath.rootlink]⟩

end Path

theorem Children.le_length {d : Dir} {l : List Nat} {T : List (Entry × Bool)}
    (h : Children d l T) {n : Id} {k : Nat} (hn : d.linkOf n = some (l ++ [k])) :
    0 < k ∧ k ≤ T.length := by
  obtain ⟨i, e, rfl, hi, -⟩ := (h n k).mp hn
  have := (List.getElem?_eq_some_iff.mp hi).1
  omega

/-- A node strictly below a node whose children are known is below one of
them. -/
theorem Children.below {d : Dir} (hd : Linked d) {x n : Id} {l l' : List Nat}
    {T : List (Entry × Bool)} (h : Children d l T) (hx : d.linkOf x = some l)
    (hn : d.linkOf n = some l') (hpre : l <+: l') (hne : l ≠ l') :
    ∃ k rest, k ≤ T.length ∧ l' = l ++ k :: rest := by
  obtain ⟨f, hf, rfl⟩ := linkOf_eq_some.mp hx
  obtain ⟨g, hg, rfl⟩ := linkOf_eq_some.mp hn
  obtain ⟨c, t, k, hc, ht, u, hu⟩ := hd.child_toward hf hg hpre hne
  have hk := h.le_length (linkOf_eq_some.mpr ⟨t, hc, ht⟩)
  refine ⟨k, u, hk.2, ?_⟩
  rw [← hu, ht]
  simp

/-- Every node is below the callee, waiting, or in a finished branch. -/
theorem Waits.cases {d : Dir} {cs : List (Frame × Entry)}
    (h : Waits d cs) (hd : Linked d) (hroot : d.linkOf rootId = some [1])
    {n : Id} {l : List Nat} (hn : d.linkOf n = some l) :
    calleeLink cs <+: l ∨ (∃ x ∈ cs, l = x.1.rootlink ∧ n = x.1.file) ∨
      EarlierBranch cs l := by
  induction cs with
  | nil =>
    obtain ⟨f, hf, rfl⟩ := linkOf_eq_some.mp hn
    obtain ⟨r, hr, hpre⟩ := hd.root_above hf
    rw [linkOf_of_tree hr] at hroot
    rw [Option.some.inj hroot] at hpre
    exact Or.inl hpre
  | cons x cs ih =>
    obtain ⟨hpath, ⟨t, T, hT⟩, hrest⟩ := h
    have hx : d.linkOf x.1.file = some x.1.rootlink :=
      linkOf_eq_some.mpr ⟨t, hT.tree, hT.link⟩
    rcases ih hrest with hpre | ⟨y, hy, hly⟩ | hearly
    · rw [← hpath.rootlink] at hpre
      by_cases heq : x.1.rootlink = l
      · subst heq
        exact Or.inr (Or.inl ⟨x, List.mem_cons_self, rfl, hd.linkOf_inj hn hx⟩)
      · obtain ⟨k, rest, hk, rfl⟩ := hT.children.below hd hx hn hpre heq
        have hcount := hT.count
        rw [List.length_append, List.length_singleton, hcount] at hk
        by_cases hlast : k = x.1.count
        · subst hlast
          refine Or.inl ⟨rest, ?_⟩
          rw [calleeLink, List.append_assoc]
          rfl
        · exact Or.inr (Or.inr (earlierBranch_cons.mpr
            (Or.inl ⟨k, rest, by omega, rfl⟩)))
    · exact Or.inr (Or.inl ⟨y, List.mem_cons_of_mem _ hy, hly⟩)
    · exact Or.inr (Or.inr (earlierBranch_cons.mpr (Or.inr hearly)))

end Jhalfs
