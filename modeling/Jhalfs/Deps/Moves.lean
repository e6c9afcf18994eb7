import Jhalfs.Deps.Invariant

/-!
# What one step of the third pass does

`Move` lists the nine ways a step of `generate_dependency_tree` can go (and the
`exit 1` that never happens), each with the tests the code has made:

- a frame that runs finishes its file (`finish`), prunes the edge that closes a
  cycle (`prune`), returns the weight of a weaker edge of the cycle (`backUp`),
  passes over a node of another branch (`skip`), calls itself for a new node
  (`call`) or records a new leaf (`leaf`);
- a return value is taken by the caller (`resume`), meets the edge that is
  exchanged (`exchange`), or goes on to the next caller out (`popUp`).

`move_of_step` is the inversion that every invariant proof uses: an invariant has
one lemma for each move, and its step lemma puts them together. No later proof
unfolds the step function.

The rest of the file says what the directory operations do to links, entries and
lines: one small lemma for each operation and each part of the directory, or an
inversion for what may be in the directory afterwards.
-/

namespace Jhalfs

open Position

/-- The frame after it has read and counted one more entry. -/
def Frame.next (fr : Frame) : Frame := { fr with count := fr.count + 1 }

/-- The frame after it has recorded the entry it is at in `lines_to_remove`. -/
def Frame.remove (fr : Frame) (e : Entry) : Frame :=
  { fr with linesToRemove := fr.linesToRemove ++ [e.id] }

/-- The entries of its file that the frame has not read. -/
def Frame.unread (d : Dir) (fr : Frame) : List Entry := (d.entriesOf fr.file).drop fr.count

/-- What is left to read after one more entry. -/
theorem Frame.unread_next {d : Dir} {fr : Frame} {e : Entry}
    (he : (d.entriesOf fr.file)[fr.count]? = some e) :
    fr.unread d = e :: fr.next.unread d := by
  obtain ⟨hlt, hget⟩ := List.getElem?_eq_some_iff.mp he
  rw [Frame.unread, ← hget]
  exact List.drop_eq_getElem_cons hlt

/-- The `.tree` file of a new child: its link is that of the frame and its own number;
a node without dependencies has no line of weights. -/
def childFile (d : Dir) (fr : Frame) (e : Entry) : TreeFile :=
  if d.dep e.id ≠ [] then
    ⟨fr.rootlink ++ [fr.count + 1], fr.priolink ++ [e.prio.val], d.dep e.id⟩
  else ⟨fr.rootlink ++ [fr.count + 1], [], []⟩

/-- The steps of the pass. -/
inductive Move (c : Config) : Config → Prop where
  /-- End of the file: clean up and return 0. -/
  | finish (fr : Frame) : c.ctl = .run fr → (c.dir.entriesOf fr.file)[fr.count]? = none →
      Move c { c with dir := c.dir.cleanTree fr, ctl := .ret 0 }
  /-- The file of the entry has no line (func_dependencies:403–407). -/
  | quit (fr : Frame) (e : Entry) (other : TreeFile) : c.ctl = .run fr →
      (c.dir.entriesOf fr.file)[fr.count]? = some e → c.dir.tree e.id = some other →
      other.link = [] → Move c { c with ctl := .exit }
  /-- A cycle whose last edge is a weakest one: prune it. -/
  | prune (fr : Frame) (e : Entry) (other : TreeFile) : c.ctl = .run fr →
      (c.dir.entriesOf fr.file)[fr.count]? = some e → c.dir.tree e.id = some other →
      other.link ≠ [] → other.link <+: fr.rootlink →
      lowestPriority other.link.length fr.rootlink.length fr.priolink ≤ e.prio.val →
      Move c
        { c with
          dir := c.dir.deleteDep fr.file e.id
          ctl := .run (fr.next.remove e) }
  /-- A cycle with a weaker edge: back up to it. -/
  | backUp (fr : Frame) (e : Entry) (other : TreeFile) : c.ctl = .run fr →
      (c.dir.entriesOf fr.file)[fr.count]? = some e → c.dir.tree e.id = some other →
      other.link ≠ [] → other.link <+: fr.rootlink →
      e.prio.val < lowestPriority other.link.length fr.rootlink.length fr.priolink →
      Move c
        { c with
          parentNode := c.dir.findParent other.link.dropLast
          ctl := .ret (lowestPriority other.link.length fr.rootlink.length fr.priolink) }
  /-- Already seen in another branch: prune the tree only. -/
  | skip (fr : Frame) (e : Entry) (other : TreeFile) : c.ctl = .run fr →
      (c.dir.entriesOf fr.file)[fr.count]? = some e → c.dir.tree e.id = some other →
      other.link ≠ [] → ¬ other.link <+: fr.rootlink →
      Move c { c with ctl := .run (fr.next.remove e) }
  /-- A new dependency with dependencies: build its subtree. -/
  | call (fr : Frame) (e : Entry) : c.ctl = .run fr →
      (c.dir.entriesOf fr.file)[fr.count]? = some e → c.dir.tree e.id = none →
      c.dir.dep e.id ≠ [] →
      Move c
        { c with
          dir := c.dir.setTree e.id (childFile c.dir fr e)
          ctl := .run (Frame.open e.id (childFile c.dir fr e))
          callers := (fr.next, e) :: c.callers }
  /-- A new dependency without dependencies: record its link. -/
  | leaf (fr : Frame) (e : Entry) : c.ctl = .run fr →
      (c.dir.entriesOf fr.file)[fr.count]? = some e → c.dir.tree e.id = none →
      c.dir.dep e.id = [] →
      Move c { c with dir := c.dir.setTree e.id (childFile c.dir fr e), ctl := .run fr.next }
  /-- Normal return. -/
  | resume (fr : Frame) (e : Entry) (cs : List (Frame × Entry)) : c.ctl = .ret 0 →
      c.callers = (fr, e) :: cs → Move c { c with ctl := .run fr, callers := cs }
  /-- The back-up has met the edge to exchange. -/
  | exchange (fr : Frame) (e : Entry) (cs : List (Frame × Entry)) (p2 : Nat) :
      c.ctl = .ret p2 → p2 ≠ 0 → p2 = e.prio.val → c.callers = (fr, e) :: cs →
      Move c
        { c with
          dir := exchange c.dir c.parentNode fr e
          ctl := .run (fr.remove e)
          callers := cs }
  /-- The back-up goes on. -/
  | popUp (fr : Frame) (e : Entry) (cs : List (Frame × Entry)) (p2 : Nat) :
      c.ctl = .ret p2 → p2 ≠ 0 → p2 ≠ e.prio.val → c.callers = (fr, e) :: cs →
      Move c { c with callers := cs }

theorem move_of_visit {c : Config} {fr : Frame} {e : Entry} (hctl : c.ctl = .run fr)
    (he : (c.dir.entriesOf fr.file)[fr.count]? = some e) : Move c (visit c fr.next e) := by
  unfold visit
  cases htree : c.dir.tree e.id with
  | some other =>
    dsimp only
    by_cases hnil : other.link = []
    · rw [if_pos hnil]
      exact .quit fr e other hctl he htree hnil
    · rw [if_neg hnil]
      by_cases hcirc : other.link <+: fr.rootlink
      · have htest : linkTest other.link fr.next.rootlink = true := (linkTest_iff hnil).mpr hcirc
        rw [if_pos htest]
        by_cases hp : lowestPriority other.link.length fr.rootlink.length fr.priolink ≤ e.prio.val
        · have hp' : lowestPriority other.link.length fr.next.rootlink.length fr.next.priolink
              ≤ e.prio.val := hp
          rw [if_pos hp']
          exact .prune fr e other hctl he htree hnil hcirc hp
        · have hp' : ¬ lowestPriority other.link.length fr.next.rootlink.length fr.next.priolink
              ≤ e.prio.val := hp
          rw [if_neg hp']
          exact .backUp fr e other hctl he htree hnil hcirc (Nat.lt_of_not_le hp)
      · have htest : ¬ linkTest other.link fr.next.rootlink = true :=
          fun h => hcirc ((linkTest_iff hnil).mp h)
        rw [if_neg htest]
        exact .skip fr e other hctl he htree hnil hcirc
  | none =>
    dsimp only
    by_cases hdep : c.dir.dep e.id = []
    · have := Move.leaf fr e hctl he htree hdep
      simpa only [childFile, hdep, ne_eq, not_true_eq_false, if_false, Frame.next] using this
    · have := Move.call fr e hctl he htree hdep
      simpa only [childFile, ne_eq, hdep, not_false_eq_true, if_true, Frame.next] using this

/-- **Inversion of a step**: every step is one of the moves, with the tests that the
code has made on the way. -/
theorem move_of_step {c c' : Config} (h : generateDependencyTree c = some c') : Move c c' := by
  unfold generateDependencyTree at h
  cases hctl : c.ctl with
  | exit =>
    rw [hctl] at h
    cases h
  | run fr =>
    rw [hctl] at h
    dsimp only at h
    cases he : (c.dir.entriesOf fr.file)[fr.count]? with
    | none =>
      rw [he] at h
      cases h
      exact .finish fr hctl he
    | some e =>
      rw [he] at h
      cases h
      exact move_of_visit hctl he
  | ret p2 =>
    rw [hctl] at h
    dsimp only at h
    cases hcs : c.callers with
    | nil =>
      rw [hcs] at h
      cases h
    | cons x cs =>
      obtain ⟨fr, e⟩ := x
      rw [hcs] at h
      dsimp only at h
      by_cases h0 : p2 = 0
      · rw [if_pos h0] at h
        cases h
        rw [h0] at hctl
        exact .resume fr e cs hctl hcs
      · rw [if_neg h0] at h
        by_cases hp : p2 = e.prio.val
        · rw [if_pos hp] at h
          cases h
          exact .exchange fr e cs p2 hctl h0 hp hcs
        · rw [if_neg hp] at h
          cases h
          have := Move.popUp fr e cs p2 hctl h0 hp hcs
          rwa [hctl] at this

/-! ## The directory operations -/

section Ops

variable {d : Dir} {file n id : Id} {f t : TreeFile} {e : Entry} {l : List Nat}

theorem deleteDep_linkOf : (d.deleteDep file id).linkOf = d.linkOf := rfl

theorem deleteDep_dep_self :
    (d.deleteDep file id).dep file = (d.dep file).filter fun e => !e.contains id :=
  Function.update_self ..

theorem deleteDep_dep_of_ne (h : n ≠ file) : (d.deleteDep file id).dep n = d.dep n :=
  Function.update_of_ne h ..

/-- The deletion takes every line of the name. -/
theorem id_ne_of_mem_deleteDep (h : e ∈ (d.deleteDep file id).dep file) :
    e ∈ d.dep file ∧ e.id ≠ id := by
  rw [deleteDep_dep_self, List.mem_filter] at h
  refine ⟨h.1, ?_⟩
  rintro rfl
  rw [Entry.contains_self] at h
  cases h.2

theorem mem_of_mem_deleteDep (h : e ∈ (d.deleteDep file id).dep n) : e ∈ d.dep n := by
  by_cases hn : n = file
  · subst hn
    exact (id_ne_of_mem_deleteDep h).1
  · rwa [deleteDep_dep_of_ne hn] at h

theorem setTree_tree_self : (d.setTree file f).tree file = some f := Function.update_self ..

theorem setTree_tree_of_ne (h : n ≠ file) : (d.setTree file f).tree n = d.tree n :=
  Function.update_of_ne h ..

theorem setTree_linkOf_self : (d.setTree file f).linkOf file = some f.link :=
  linkOf_of_tree setTree_tree_self

theorem setTree_linkOf_of_ne (h : n ≠ file) : (d.setTree file f).linkOf n = d.linkOf n := by
  rw [Dir.linkOf, setTree_tree_of_ne h]
  rfl

/-- A node without a file becomes one more node. -/
theorem setTree_linkOf_new (h : d.tree file = none) :
    (d.setTree file f).linkOf n = some l ↔ n = file ∧ l = f.link ∨ d.linkOf n = some l := by
  by_cases hn : n = file
  · subst hn
    rw [setTree_linkOf_self, Option.some.injEq, Dir.linkOf, h]
    simp [eq_comm]
  · rw [setTree_linkOf_of_ne hn]
    simp [hn]

theorem setTree_linkOf_same (h : d.linkOf file = some f.link) :
    (d.setTree file f).linkOf = d.linkOf := by
  funext n
  by_cases hn : n = file
  · subst hn
    rw [setTree_linkOf_self, h]
  · exact setTree_linkOf_of_ne hn

theorem cleanTree_dep (fr : Frame) : (d.cleanTree fr).dep = d.dep := by
  rw [Dir.cleanTree]
  cases d.tree fr.file <;> rfl

theorem cleanTree_names (fr : Frame) : (d.cleanTree fr).names = d.names := by
  rw [Dir.cleanTree]
  cases d.tree fr.file <;> rfl

theorem cleanTree_tree_of_ne {fr : Frame} (h : n ≠ fr.file) :
    (d.cleanTree fr).tree n = d.tree n := by
  rw [Dir.cleanTree]
  cases d.tree fr.file with
  | none => rfl
  | some t => exact setTree_tree_of_ne h

/-- The clean-up only takes entries away. -/
theorem cleanTree_tree {fr : Frame} (h : (d.cleanTree fr).tree n = some t) :
    ∃ f, d.tree n = some f ∧ t.entries.Sublist f.entries := by
  by_cases hn : n = fr.file
  · subst hn
    rw [Dir.cleanTree] at h
    cases hf : d.tree fr.file with
    | none =>
      rw [hf] at h
      cases hf.symm.trans h
    | some f =>
      rw [hf] at h
      dsimp only at h
      rw [setTree_tree_self] at h
      cases h
      exact ⟨f, rfl, cleanUp_sublist f _⟩
  · rw [cleanTree_tree_of_ne hn] at h
    exact ⟨t, h, List.Sublist.refl _⟩

@[simp] theorem childFile_link {fr : Frame} :
    (childFile d fr e).link = fr.rootlink ++ [fr.count + 1] := by
  unfold childFile
  split <;> rfl

theorem childFile_entries {fr : Frame} : (childFile d fr e).entries = d.dep e.id := by
  unfold childFile
  split
  · rfl
  · next h => simpa using Eq.symm (not_not.mp h)

theorem childFile_priolink {fr : Frame} (h : d.dep e.id ≠ []) :
    (childFile d fr e).priolink = fr.priolink ++ [e.prio.val] := by
  rw [childFile, if_pos h]

theorem eraseUnder_linkOf {r : List Nat} :
    (d.eraseUnder r).linkOf n = some l ↔ d.linkOf n = some l ∧ ¬ r <+: l := by
  rw [linkOf_eq_some, linkOf_eq_some]
  constructor
  · rintro ⟨g, hg, rfl⟩
    obtain ⟨hg, hnot⟩ := eraseUnder_tree_eq_some.mp hg
    exact ⟨⟨g, hg, rfl⟩, hnot⟩
  · rintro ⟨⟨g, hg, rfl⟩, hnot⟩
    exact ⟨g, eraseUnder_tree_eq_some.mpr ⟨hg, hnot⟩, rfl⟩

theorem appendLine_dep_self : (d.appendLine file e).dep file = d.dep file ++ [e] :=
  Function.update_self ..

theorem appendLine_dep_of_ne (h : n ≠ file) : (d.appendLine file e).dep n = d.dep n :=
  Function.update_of_ne h ..

theorem appendLine_tree_self (h : d.tree file = some t) :
    (d.appendLine file e).tree file = some { t with entries := t.entries ++ [e] } := by
  rw [Dir.appendLine]
  dsimp only
  rw [Function.update_self, h]
  rfl

theorem appendLine_tree_of_ne (h : n ≠ file) : (d.appendLine file e).tree n = d.tree n :=
  Function.update_of_ne h ..

/-- A line after the `echo` was there, or is the new one. -/
theorem cases_appendLine_dep {x : Entry} (h : x ∈ (d.appendLine file e).dep n) :
    x ∈ d.dep n ∨ (n = file ∧ x = e) := by
  by_cases hn : n = file
  · subst hn
    rw [appendLine_dep_self] at h
    exact (List.mem_append.mp h).imp_right fun hx => ⟨rfl, List.mem_singleton.mp hx⟩
  · rw [appendLine_dep_of_ne hn] at h
    exact Or.inl h

theorem cases_appendLine_tree (h : (d.appendLine file e).tree n = some t) :
    ∃ f, d.tree n = some f ∧ ∀ x ∈ t.entries, x ∈ f.entries ∨ (n = file ∧ x = e) := by
  by_cases hn : n = file
  · subst hn
    cases hf : d.tree n with
    | none =>
      rw [Dir.appendLine] at h
      dsimp only at h
      rw [Function.update_self, hf] at h
      cases h
    | some f =>
      rw [appendLine_tree_self hf] at h
      cases h
      refine ⟨f, rfl, fun x hx => ?_⟩
      exact (List.mem_append.mp hx).imp_right fun hx => ⟨rfl, List.mem_singleton.mp hx⟩
  · rw [appendLine_tree_of_ne hn] at h
    exact ⟨t, h, fun _ hx => Or.inl hx⟩

theorem appendLine_linkOf : (d.appendLine file e).linkOf = d.linkOf := by
  funext n
  by_cases hn : n = file
  · subst hn
    cases ht : d.tree n with
    | none =>
      rw [Dir.linkOf, Dir.linkOf, Dir.appendLine]
      dsimp only
      rw [Function.update_self, ht]
      rfl
    | some t =>
      rw [linkOf_of_tree (appendLine_tree_self ht), linkOf_of_tree ht]
  · rw [Dir.linkOf, Dir.linkOf, appendLine_tree_of_ne hn]

end Ops

end Jhalfs
