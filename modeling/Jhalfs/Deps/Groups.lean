import Jhalfs.Deps.Runtime
import Jhalfs.Deps.Subgraph

/-!
# What the first two loops of `clean_subgraph` keep

The loops are meant to lose nothing (BLFS/libs/func_dependencies:228–235): for
`A -before-> B -after-> C` they make a group `Bgroupxx` that lists `B` and `C`, and
move `A` to it. So a package stays reachable, and a before edge stays or goes through
the group of its end. They do when no step makes one of these slips
(`runtimeSlipFree`):

- the name of the group is the name of a node (`node.groupxx ∉ F.names`);
- the node lists a name both as after and otherwise, and the deletion of the after
  lines takes the other lines along (`keepsOthers`);
- a dependency is not given to the group, as its name occurs in another line of it
  (`gathersAll`);
- some file is taken for a parent and moved, so that `root.dep` does not get the
  group, but no file that does list the node is moved and can be reached without the
  after lines of the node (`groupUsed`).

Each of them is a loss of its step: where the name of the group is free, a step meets
the rest of the condition exactly if the node keeps its other lines, the group gets
every after dependency, and root leads to the group (`runtimeSlipFree_iff`).

From the steps to the whole loop it is an induction over the nodes that are left. A
node stands for a package, for itself or as its group (`StandsFor`), and the name on a
line leads to a package, directly or by way of a group that is made (`LeadsTo`). The
invariant is built in three layers: the nodes that are left are packages and all files
are there (`NodesInv`); the lines of the input are where they can be followed
(`LinesInv`); and what is there now comes from the input, line by line and path by path
(`RuntimeInv`).
-/

namespace Jhalfs

section Conditions

variable (collate : Id → Id → Bool) (F : Files) (node : Id)

/-- No line of `node` that is not an after one has the name of one. -/
def keepsOthers : Bool :=
  (movedLines F node node).all fun e =>
    e.build == .a || !(F.idsWith .a node).contains e.id

/-- Every after dependency gets into the group: where `grep` finds its name in the
group, it is the name of a line. -/
def gathersAll : List Entry → List Entry → Bool
  | _, [] => true
  | group, e :: es =>
    if e.build = .a then
      if group.any fun d => d.contains e.id then
        (group.any fun d => d.id == e.id) && gathersAll group es
      else gathersAll (group ++ [{ e with build := .b }]) es
    else gathersAll group es

/-- The files without the after lines of `node`. -/
def withoutAfter : Files := F.edit node fun es => es.filter fun e => e.build != .a

/-- The group is listed by root, or by a file that is moved to it and that root leads
to without the after lines of the node. No weight is above 9. -/
def groupUsed : Bool :=
  !someMoved collate F node ||
    F.names.any fun p =>
      !leadsBack F node p && decide (node ∈ idsOf (F.lines p)) &&
        pathTo (withoutAfter F node) rootId p 9

/-- The step at `node` makes no slip: the name of the group is free, the node keeps its other
lines, the group gets all after dependencies, and it is used. It is a test on the files
before the step. -/
def runtimeSlipFree : Bool :=
  decide (node.groupxx ∉ F.names) && keepsOthers F node &&
    gathersAll [required node] (movedLines F node node) && groupUsed collate F node

end Conditions

variable {collate : Id → Id → Bool} {F : Files} {node : Id}

theorem keepsOthers_iff : keepsOthers F node = true ↔
    ∀ e ∈ movedLines F node node, e.build ≠ .a → e.id ∉ F.idsWith .a node := by
  rw [keepsOthers, List.all_eq_true]
  refine forall₂_congr fun e _ => ?_
  rw [Bool.or_eq_true, beq_iff_eq, Bool.not_eq_true', ← Bool.not_eq_true, List.contains_iff_mem]
  exact or_iff_not_imp_left

/-- The group gets the after dependencies exactly if `grep` drops none whose name it
does not list: what is dropped once is dropped on every later line. -/
theorem gathersAll_iff {group es : List Entry} : gathersAll group es = true ↔
    ∀ e ∈ es, e.build = .a → e.id ∈ idsOf (gather group es) := by
  induction es generalizing group with
  | nil => simp [gathersAll]
  | cons c es ih =>
    rw [gathersAll, gather, List.forall_mem_cons]
    by_cases hc : c.build = .a
    · rw [if_pos hc, if_pos hc]
      by_cases hin : (group.any fun d => d.contains c.id) = true
      · rw [if_pos hin, if_pos hin, Bool.and_eq_true, ih]
        refine and_congr_left fun _ => ?_
        rw [imp_iff_right hc, List.any_eq_true]
        constructor
        · rintro ⟨d, hd, hid⟩
          exact mem_idsOf.mpr ⟨d, mem_gather_of_mem hd es, beq_iff_eq.mp hid⟩
        · intro hmem
          obtain ⟨d, hd, hid⟩ := mem_idsOf.mp hmem
          exact (exists_mem_of_mem_gather hin hd hid).imp fun g hg => ⟨hg.1, beq_iff_eq.mpr hg.2⟩
      · rw [if_neg hin, if_neg hin, ih, iff_and_self]
        exact fun _ _ => mem_idsOf.mpr ⟨_, mem_gather_of_mem
          (List.mem_append_right _ (List.mem_singleton_self _)) es, rfl⟩
    · rw [if_neg hc, if_neg hc, ih, iff_and_self]
      exact fun _ h => absurd h hc

theorem lines_withoutAfter (p : Id) : (withoutAfter F node).lines p =
    if p = node then (F.lines p).filter fun e => e.build != .a else F.lines p := by
  rw [withoutAfter]
  split
  · next hp => rw [hp, Files.lines_edit_self rfl]
  · next hp => exact Files.lines_edit_of_ne hp

theorem mem_lines_withoutAfter {p : Id} {e : Entry} :
    e ∈ (withoutAfter F node).lines p ↔ e ∈ F.lines p ∧ (p = node → e.build ≠ .a) := by
  rw [lines_withoutAfter]
  split
  · next hp => simp [List.mem_filter, hp]
  · next hp => simp [hp]

theorem groupUsed_iff : groupUsed collate F node = true ↔
    someMoved collate F node = false ∨
      ∃ p, leadsBack F node p = false ∧ node ∈ idsOf (F.lines p) ∧
        DependsOn (withoutAfter F node).lines rootId p := by
  rw [groupUsed, Bool.or_eq_true, Bool.not_eq_true', List.any_eq_true]
  refine or_congr_right (exists_congr fun p => ?_)
  rw [Bool.and_eq_true, Bool.and_eq_true, Bool.not_eq_true', decide_eq_true_iff, pathTo_iff,
    path_nine_iff, and_assoc]
  constructor
  · exact fun h => h.2
  · intro h
    obtain ⟨e, he, -⟩ := mem_idsOf.mp h.2.1
    exact ⟨Files.mem_names_of_mem_lines he, h⟩

/-! ## One step -/

section Step

variable (hroot : rootId ∈ F.names) (hnode : node ≠ rootId) (hnew : node.groupxx ∉ F.names)
  (hkeep : keepsOthers F node = true)

variable (node) in
/-- A line as it is after the loop over the parents. -/
theorem exists_movedLine {p : Id} {e : Entry} (he : e ∈ F.lines p) :
    ∃ d ∈ movedLines F node p, d.build = e.build ∧ d.prio = e.prio ∧
      ((leadsBack F node p = true ∨ e.id ≠ node) ∧ d.id = e.id ∨
        leadsBack F node p = false ∧ e.id = node ∧ d.id = node.groupxx) := by
  rw [movedLines]
  by_cases hback : leadsBack F node p = true
  · rw [if_pos hback]
    exact ⟨e, he, rfl, rfl, Or.inl ⟨Or.inl hback, rfl⟩⟩
  · rw [if_neg hback]
    refine ⟨e.rename node node.groupxx, mem_toGroup.mpr ⟨e, he, rfl⟩, Entry.rename_build,
      Entry.rename_prio, ?_⟩
    by_cases hid : e.id = node
    · exact Or.inr ⟨Bool.not_eq_true _ ▸ hback, hid, Entry.rename_of_eq hid⟩
    · exact Or.inl ⟨Or.inr hid, by rw [Entry.rename_of_ne hid]⟩

/-- A line that the loop over the parents leaves is the line of `F`, with the name of
the group at most in place of its name. -/
theorem exists_of_mem_moved {p : Id} {d : Entry} (hd : d ∈ movedLines F node p) :
    ∃ e ∈ F.lines p, d.build = e.build ∧ d.prio = e.prio ∧
      (d.id = e.id ∧ (leadsBack F node p = true ∨ e.id ≠ node) ∨
        leadsBack F node p = false ∧ e.id = node ∧ d.id = node.groupxx) := by
  rw [movedLines] at hd
  split at hd
  · next hback => exact ⟨d, hd, rfl, rfl, Or.inl ⟨rfl, Or.inl hback⟩⟩
  · next hback =>
    obtain ⟨e, he, rfl⟩ := mem_toGroup.mp hd
    refine ⟨e, he, Entry.rename_build, Entry.rename_prio, ?_⟩
    by_cases hid : e.id = node
    · exact Or.inr ⟨Bool.not_eq_true _ ▸ hback, hid, Entry.rename_of_eq hid⟩
    · exact Or.inl ⟨by rw [Entry.rename_of_ne hid], Or.inr hid⟩

/-- The after lines of the node itself are not renamed. -/
theorem mem_moved_of_after {e : Entry} (he : e ∈ F.lines node) (hbuild : e.build = .a) :
    e ∈ movedLines F node node := by
  rw [movedLines]
  split
  · exact he
  · next hback =>
    refine mem_toGroup.mpr ⟨e, he, Entry.rename_of_ne fun hid => hback ?_⟩
    exact leadsBack_iff.mpr ⟨node, Files.mem_idsWith.mpr ⟨e, he, hbuild, hid⟩,
      Relation.ReflTransGen.refl⟩

theorem mem_lines_of_moved_after {d : Entry} (hd : d ∈ movedLines F node node)
    (hbuild : d.build = .a) : d ∈ F.lines node := by
  rw [movedLines] at hd
  split at hd
  · exact hd
  · next hback =>
    obtain ⟨e, he, rfl⟩ := mem_toGroup.mp hd
    rw [Entry.rename_build] at hbuild
    rw [Entry.rename_of_ne]
    · exact he
    · exact fun hid => hback (leadsBack_iff.mpr ⟨node, Files.mem_idsWith.mpr
        ⟨e, he, hbuild, hid⟩, Relation.ReflTransGen.refl⟩)

/-- The line of the group for its node. -/
theorem required_mem_group : required node ∈ gather [required node] (movedLines F node node) :=
  mem_gather_of_mem (List.mem_singleton_self _) _

include hroot hnode hnew

/-- The step gives root no way to the group but by a file that it moves. -/
theorem groupUsed_of_dependsOn (htargets : ∀ p, ∀ e ∈ F.lines p, e.id ∈ F.names)
    (hpath : DependsOn (processRuntime collate F node).lines rootId node.groupxx) :
    groupUsed collate F node = true := by
  rw [groupUsed_iff]
  -- up to the first line that names the group, a way uses lines that were there
  have hway : ∀ n, DependsOn (processRuntime collate F node).lines rootId n →
      (someMoved collate F node = false ∨
        ∃ p, leadsBack F node p = false ∧ node ∈ idsOf (F.lines p) ∧
          DependsOn (withoutAfter F node).lines rootId p) ∨
      DependsOn (withoutAfter F node).lines rootId n ∧ n ∈ F.names := by
    intro n hn
    induction hn with
    | refl => exact Or.inr ⟨Relation.ReflTransGen.refl, hroot⟩
    | @tail p n _ hedge ih =>
      rcases ih with hused | ⟨hp, hpmem⟩
      · exact Or.inl hused
      obtain ⟨d, hd, rfl⟩ := mem_idsOf.mp hedge
      have hgroup : p ≠ node.groupxx := fun h => hnew (h ▸ hpmem)
      rw [lines_processRuntime collate hroot hnew hnode, if_neg hgroup] at hd
      have hmoved : d ∈ movedLines F node p ∧ (p = node → d.id ∉ F.idsWith .a node) ∨
          someMoved collate F node = false := by
        by_cases hpn : p = node
        · rw [if_pos hpn, List.mem_filter, decide_eq_true_iff] at hd
          exact Or.inl ⟨hpn ▸ hd.1, fun _ => hd.2⟩
        · rw [if_neg hpn] at hd
          by_cases hr : p = rootId
          · rw [if_pos hr] at hd
            rcases List.mem_append.mp hd with hd | hd
            · exact Or.inl ⟨hd, fun h => absurd h hpn⟩
            · rw [rootLine] at hd
              split at hd
              · exact absurd hd List.not_mem_nil
              · next hnone => exact Or.inr (Bool.not_eq_true _ ▸ hnone)
          · rw [if_neg hr] at hd
            exact Or.inl ⟨hd, fun h => absurd h hpn⟩
      rcases hmoved with ⟨hmoved, hkept⟩ | hnone
      · obtain ⟨e, he, hbuild, -, ⟨hid, -⟩ | ⟨hback, hid, -⟩⟩ := exists_of_mem_moved hmoved
        · refine Or.inr ⟨hp.tail (mem_idsOf.mpr ⟨e, ?_, hid.symm⟩), hid ▸ htargets p e he⟩
          refine mem_lines_withoutAfter.mpr ⟨he, fun hpn hafter => hkept hpn ?_⟩
          exact Files.mem_idsWith.mpr ⟨e, hpn ▸ he, hafter, hid.symm⟩
        · exact Or.inl (Or.inr ⟨p, hback, mem_idsOf.mpr ⟨e, he, hid⟩, hp⟩)
      · exact Or.inl (Or.inl hnone)
  exact (hway _ hpath).resolve_right fun h => hnew h.2

include hkeep

variable (collate) in
/-- A line stays in its file as the loop over the parents left it, unless it is an
after line of the node. -/
theorem mem_lines_of_mem_moved {p : Id} {d : Entry} (hp : p ∈ F.names)
    (hd : d ∈ movedLines F node p) (hkept : p ≠ node ∨ d.build ≠ .a) :
    d ∈ (processRuntime collate F node).lines p := by
  rw [lines_processRuntime collate hroot hnew hnode,
    if_neg (fun h : p = node.groupxx => hnew (h ▸ hp))]
  by_cases hpn : p = node
  · rw [if_pos hpn, List.mem_filter, decide_eq_true_iff]
    subst hpn
    exact ⟨hd, keepsOthers_iff.mp hkeep d hd (hkept.resolve_left fun h => h rfl)⟩
  · rw [if_neg hpn]
    split
    · exact List.mem_append_left _ hd
    · exact hd

/-- An edge is still there, or goes through the group. -/
theorem dependsOn_of_edge {p n : Id} {e : Entry} (he : e ∈ F.lines p) (hid : e.id = n)
    (hkept : p ≠ node ∨ e.build ≠ .a) :
    DependsOn (processRuntime collate F node).lines p n := by
  obtain ⟨d, hd, hbuild, -, hdid⟩ := exists_movedLine node he
  have hmem := mem_lines_of_mem_moved collate hroot hnode hnew hkeep
    (Files.mem_names_of_mem_lines he) hd (hbuild ▸ hkept)
  rcases hdid with ⟨-, hdid⟩ | ⟨-, hnid, hdid⟩
  · exact Relation.ReflTransGen.single (mem_idsOf.mpr ⟨d, hmem, hdid.trans hid⟩)
  · have hfirst : DependsOn (processRuntime collate F node).lines p node.groupxx :=
      Relation.ReflTransGen.single (mem_idsOf.mpr ⟨d, hmem, hdid⟩)
    refine hfirst.tail (mem_idsOf.mpr ⟨required node, ?_, hnid.symm.trans hid⟩)
    rw [lines_processRuntime collate hroot hnew hnode, if_pos rfl]
    exact required_mem_group

/-- A group that is used is reachable. -/
theorem dependsOn_groupxx (hused : groupUsed collate F node = true) :
    DependsOn (processRuntime collate F node).lines rootId node.groupxx := by
  rcases groupUsed_iff.mp hused with hnone | ⟨p, hback, hlists, hpath⟩
  · refine Relation.ReflTransGen.single (mem_idsOf.mpr ⟨required node.groupxx, ?_, rfl⟩)
    rw [lines_processRuntime collate hroot hnew hnode, if_neg (Ne.symm node.groupxx_ne_root),
      if_neg (Ne.symm hnode), if_pos rfl, rootLine, hnone]
    exact List.mem_append_right _ (List.mem_singleton_self _)
  · have hto : DependsOn (processRuntime collate F node).lines rootId p := by
      clear hback hlists
      induction hpath with
      | refl => exact Relation.ReflTransGen.refl
      | tail _ hedge ih =>
        obtain ⟨e, he, hid⟩ := mem_idsOf.mp hedge
        rw [mem_lines_withoutAfter] at he
        exact ih.trans (dependsOn_of_edge hroot hnode hnew hkeep he.1 hid (imp_iff_not_or.mp he.2))
    obtain ⟨e, he, hid⟩ := mem_idsOf.mp hlists
    obtain ⟨d, hd, hbuild, -, hdid⟩ := exists_movedLine node he
    have hgroup : d.id = node.groupxx := by
      rcases hdid with ⟨hno | hno, -⟩ | ⟨-, -, hdid⟩
      · exact absurd (hback ▸ hno) Bool.false_ne_true
      · exact absurd hid hno
      · exact hdid
    refine hto.tail (mem_idsOf.mpr ⟨d, mem_lines_of_mem_moved collate hroot hnode hnew hkeep
      (Files.mem_names_of_mem_lines he) hd ?_, hgroup⟩)
    by_contra hcon
    rw [not_or, not_ne_iff, not_ne_iff] at hcon
    -- an after line of the node that names the node leads back to it
    refine not_leadsBack_iff.mp hback node (Files.mem_idsWith.mpr ⟨e, hcon.1 ▸ he, ?_, hid⟩) ?_
    · exact hbuild ▸ hcon.2
    · exact hcon.1 ▸ Relation.ReflTransGen.refl

omit hkeep

/-- **A step makes no slip exactly if it loses nothing**, where the name of the group
is free: the node keeps its other lines, the group gets every after dependency, and
root leads to the group. -/
theorem runtimeSlipFree_iff (htargets : ∀ p, ∀ e ∈ F.lines p, e.id ∈ F.names) :
    runtimeSlipFree collate F node = true ↔
      (∀ e ∈ movedLines F node node, e.build ≠ .a →
        e ∈ (processRuntime collate F node).lines node) ∧
      (∀ e ∈ F.lines node, e.build = .a →
        e.id ∈ idsOf ((processRuntime collate F node).lines node.groupxx)) ∧
      DependsOn (processRuntime collate F node).lines rootId node.groupxx := by
  have hkeeps : keepsOthers F node = true ↔ ∀ e ∈ movedLines F node node, e.build ≠ .a →
      e ∈ (processRuntime collate F node).lines node := by
    rw [keepsOthers_iff]
    refine forall₂_congr fun e he => forall_congr' fun _ => ?_
    rw [lines_processRuntime collate hroot hnew hnode, if_neg (Ne.symm node.groupxx_ne),
      if_pos rfl, List.mem_filter, decide_eq_true_iff, and_iff_right he]
  have hgathers : gathersAll [required node] (movedLines F node node) = true ↔
      ∀ e ∈ F.lines node, e.build = .a →
        e.id ∈ idsOf ((processRuntime collate F node).lines node.groupxx) := by
    rw [gathersAll_iff, lines_processRuntime collate hroot hnew hnode, if_pos rfl]
    exact ⟨fun h e he hbuild => h e (mem_moved_of_after he hbuild) hbuild,
      fun h e he hbuild => h e (mem_lines_of_moved_after he hbuild) hbuild⟩
  rw [runtimeSlipFree, Bool.and_eq_true, Bool.and_eq_true, Bool.and_eq_true, decide_eq_true_iff,
    ← hkeeps, ← hgathers, and_iff_right hnew, and_assoc]
  refine and_congr_right fun hkeep => and_congr_right fun _ => ?_
  exact ⟨dependsOn_groupxx hroot hnode hnew hkeep,
    groupUsed_of_dependsOn hroot hnode hnew htargets⟩

end Step

section SlipFree

variable (hroot : rootId ∈ F.names) (hnode : node ≠ rootId)
  (hok : runtimeSlipFree collate F node = true)

include hok

theorem groupxx_notMem : node.groupxx ∉ F.names := by
  simp only [runtimeSlipFree, Bool.and_eq_true, decide_eq_true_iff] at hok
  exact hok.1.1.1

theorem keepsOthers_of_slipFree : keepsOthers F node = true := by
  simp only [runtimeSlipFree, Bool.and_eq_true] at hok
  exact hok.1.1.2

theorem gathersAll_of_slipFree :
    gathersAll [required node] (movedLines F node node) = true := by
  simp only [runtimeSlipFree, Bool.and_eq_true] at hok
  exact hok.1.2

theorem groupUsed_of_slipFree : groupUsed collate F node = true := by
  simp only [runtimeSlipFree, Bool.and_eq_true] at hok
  exact hok.2

include hroot hnode

/-- The step keeps every node reachable. -/
theorem dependsOn_processRuntime (hreach : ∀ n ∈ F.names, DependsOn F.lines rootId n) {n : Id}
    (hn : n ∈ (processRuntime collate F node).names) :
    DependsOn (processRuntime collate F node).lines rootId n := by
  have hnew := groupxx_notMem hok
  have hkeep := keepsOthers_of_slipFree hok
  have hgroup := dependsOn_groupxx hroot hnode hnew hkeep (groupUsed_of_slipFree hok)
  rcases (names_processRuntime collate hroot hnew n).mp hn with rfl | hmem
  · exact hgroup
  · have hpath := hreach n hmem
    clear hn hmem
    induction hpath with
    | refl => exact Relation.ReflTransGen.refl
    | @tail m k _ hedge ih =>
      obtain ⟨e, he, hid⟩ := mem_idsOf.mp hedge
      by_cases hafter : m = node ∧ e.build = .a
      · -- the group lists what the node listed as after
        obtain ⟨rfl, hbuild⟩ := hafter
        refine hgroup.tail ?_
        rw [lines_processRuntime collate hroot hnew hnode, if_pos rfl, ← hid]
        exact gathersAll_iff.mp (gathersAll_of_slipFree hok) e (mem_moved_of_after he hbuild)
          hbuild
      · exact ih.trans (dependsOn_of_edge hroot hnode hnew hkeep he hid (not_and_or.mp hafter))

end SlipFree

/-! ## Following a line -/

/-- A node stands for a package: for itself, or as its group. `old` are the nodes
that the first pass has made. -/
def StandsFor (old : List Id) (name n : Id) : Prop :=
  n ∈ old ∧ ((name ∈ old ∧ name = n) ∨ (name ∉ old ∧ name = n.groupxx))

theorem StandsFor.of_mem {old : List Id} {n : Id} (h : n ∈ old) : StandsFor old n n :=
  ⟨h, Or.inl ⟨h, rfl⟩⟩

theorem StandsFor.eq_of_mem {old : List Id} {name n : Id} (h : StandsFor old name n)
    (hold : name ∈ old) : name = n := by
  rcases h.2 with ⟨-, heq⟩ | ⟨hnot, -⟩
  · exact heq
  · exact absurd hold hnot

theorem StandsFor.unique {old : List Id} {name m n : Id} (hm : StandsFor old name m)
    (hn : StandsFor old name n) : m = n := by
  by_cases hold : name ∈ old
  · exact (hm.eq_of_mem hold).symm.trans (hn.eq_of_mem hold)
  · have hgroup : ∀ k, StandsFor old name k → name = k.groupxx := fun k hk =>
      (hk.2.resolve_left fun h => hold h.1).2
    exact Id.groupxx_injective ((hgroup m hm).symm.trans (hgroup n hn))

/-- The name on a line leads to the package `n`: it is `n`, or the group of `n`, made
by a step that is over, and lists `n`. -/
def LeadsTo (old rest : List Id) (F : Files) (name n : Id) : Prop :=
  name = n ∨
    (name = n.groupxx ∧ n ∉ rest ∧ n.groupxx ∉ old ∧ n ∈ idsOf (F.lines n.groupxx))

/-! ## The loop -/

namespace Subgraph

variable (S : Subgraph)

/-- The nodes `rest` of the runtime loop that are left are packages of the input, whose
files are all there, and every line names a file. -/
structure NodesInv (rest : List Id) (F : Files) : Prop where
  nodup : rest.Nodup
  rest_old : ∀ m ∈ rest, m ∈ S.files.names
  rest_root : rootId ∉ rest
  names : ∀ n ∈ S.files.names, n ∈ F.names
  targets : ∀ p, ∀ e ∈ F.lines p, e.id ∈ F.names

/-- Where the lines of the input are: every line that is not an after one of a node
that is done is in its file, with a name that leads to its end. -/
structure LinesInv (rest : List Id) (F : Files) : Prop extends S.NodesInv rest F where
  edges : ∀ p, ∀ e ∈ S.files.lines p, (e.build ≠ .a ∨ p ∈ rest) → e.id ∈ S.files.names →
    ∃ d ∈ F.lines p, d.build = e.build ∧ d.prio = e.prio ∧
      LeadsTo S.files.names rest F d.id e.id

/-- What holds before each step of the runtime loop, when no step makes a slip.

The lines of the input can be followed and everything is reachable (`reach`); and the
other way round a node stands for a package, a line for a line of the input, and a
path for a path (`stands`, `origin`, `paths`). The last is what the test for the
parents needs: what leads back now has led back in the input. -/
structure RuntimeInv (rest : List Id) (F : Files) : Prop extends S.LinesInv rest F where
  rest_after : ∀ m ∈ rest, ∃ e ∈ S.files.lines m, e.build = .a
  reach : ∀ n ∈ F.names, DependsOn F.lines rootId n
  stands : ∀ x ∈ F.names, ∃ n, StandsFor S.files.names x n
  origin : ∀ p ∈ S.files.names, ∀ d ∈ F.lines p, d.build ≠ .b →
    ∃ e ∈ S.files.lines p, e.build = d.build ∧ StandsFor S.files.names d.id e.id
  paths : ∀ x y, Follows F.lines 3 x y → ∀ m n, StandsFor S.files.names x m →
    StandsFor S.files.names y n → Path S.files.lines 3 m n
  groups : ∀ n : Id, n.groupxx ∉ S.files.names → ∀ d ∈ F.lines n.groupxx, d.build = .b
  made : ∀ n : Id, n.groupxx ∉ S.files.names → n.groupxx ∈ F.names →
    ∃ e ∈ S.files.lines n, e.build = .a

variable {S}

section Nodes

variable {rest : List Id} (h : S.NodesInv (node :: rest) F) (hnew : node.groupxx ∉ F.names)

include h

theorem NodesInv.root : rootId ∈ F.names := h.names _ S.root_mem

theorem NodesInv.node_ne_root : node ≠ rootId := fun he =>
  h.rest_root (he ▸ List.mem_cons_self)

theorem NodesInv.node_old : node ∈ S.files.names := h.rest_old _ List.mem_cons_self

include hnew

theorem NodesInv.group_notOld : node.groupxx ∉ S.files.names := fun hold =>
  hnew (h.names _ hold)

/-- The lines after the step, file by file. -/
theorem NodesInv.lines (p : Id) : (processRuntime collate F node).lines p =
      if p = node.groupxx then gather [required node] (movedLines F node node)
      else if p = node then
        (movedLines F node node).filter fun e => decide (e.id ∉ F.idsWith .a node)
      else if p = rootId then movedLines F node p ++ rootLine collate F node
      else movedLines F node p :=
  lines_processRuntime collate h.root hnew h.node_ne_root p

theorem NodesInv.mem_names {n : Id} : n ∈ (processRuntime collate F node).names ↔
    n = node.groupxx ∨ n ∈ F.names :=
  names_processRuntime collate h.root hnew n

/-- A line after the step: moved from a line of the same file, one of the group, or
the line of the group in `root.dep`. -/
theorem NodesInv.cases_line {p : Id} {d : Entry}
    (hd : d ∈ (processRuntime collate F node).lines p) :
    (p ≠ node.groupxx ∧ d ∈ movedLines F node p ∧ (p = node → d.id ∉ F.idsWith .a node)) ∨
    (p = node.groupxx ∧ (d = required node ∨
      ∃ e ∈ F.lines node, e.build = .a ∧ d = { e with build := .b })) ∨
    (p = rootId ∧ d = required node.groupxx) := by
  rw [h.lines hnew] at hd
  by_cases hg : p = node.groupxx
  · rw [if_pos hg] at hd
    refine Or.inr (Or.inl ⟨hg, ?_⟩)
    rcases of_mem_gather hd with hd | ⟨e, he, hbuild, rfl⟩
    · exact Or.inl (List.mem_singleton.mp hd)
    · exact Or.inr ⟨e, mem_lines_of_moved_after he hbuild, hbuild, rfl⟩
  · rw [if_neg hg] at hd
    by_cases hp : p = node
    · rw [if_pos hp, List.mem_filter, decide_eq_true_iff] at hd
      exact Or.inl ⟨hg, hp ▸ hd.1, fun _ => hd.2⟩
    · rw [if_neg hp] at hd
      by_cases hr : p = rootId
      · rw [if_pos hr] at hd
        rcases List.mem_append.mp hd with hd | hd
        · exact Or.inl ⟨hg, hd, fun heq => absurd heq hp⟩
        · rw [rootLine] at hd
          split at hd
          · exact absurd hd List.not_mem_nil
          · exact Or.inr (Or.inr ⟨hr, List.mem_singleton.mp hd⟩)
      · rw [if_neg hr] at hd
        exact Or.inl ⟨hg, hd, fun heq => absurd heq hp⟩

theorem NodesInv.stands_group : StandsFor S.files.names node.groupxx node :=
  ⟨h.node_old, Or.inr ⟨h.group_notOld hnew, rfl⟩⟩

theorem NodesInv.step : S.NodesInv rest (processRuntime collate F node) where
  nodup := (List.nodup_cons.mp h.nodup).2
  rest_old m hm := h.rest_old m (List.mem_cons_of_mem _ hm)
  rest_root hm := h.rest_root (List.mem_cons_of_mem _ hm)
  names n hn := (h.mem_names hnew).mpr (Or.inr (h.names n hn))
  targets p d hd := by
    rw [h.mem_names hnew]
    rcases h.cases_line hnew hd with ⟨-, hd, -⟩ | ⟨-, rfl | ⟨e, he, -, rfl⟩⟩ | ⟨-, rfl⟩
    · obtain ⟨e, he, -, -, ⟨hid, -⟩ | ⟨-, -, hid⟩⟩ := exists_of_mem_moved hd
      · exact Or.inr (hid ▸ h.targets p e he)
      · exact Or.inl hid
    · exact Or.inr (h.names _ h.node_old)
    · exact Or.inr (h.targets node e he)
    · exact Or.inl rfl

end Nodes

section Lines

variable {rest : List Id} (h : S.LinesInv (node :: rest) F) (hnew : node.groupxx ∉ F.names)
  (hkeep : keepsOthers F node = true)

include h hnew hkeep

/-- A name that is not the node's stays what it leads to. -/
theorem LinesInv.leadsTo_step {name n : Id}
    (hlead : LeadsTo S.files.names (node :: rest) F name n) :
    LeadsTo S.files.names rest (processRuntime collate F node) name n := by
  rcases hlead with hid | ⟨hid, hn, hgroup, hlists⟩
  · exact Or.inl hid
  · rw [List.mem_cons, not_or] at hn
    refine Or.inr ⟨hid, hn.2, hgroup, ?_⟩
    obtain ⟨c, hc, hcid⟩ := mem_idsOf.mp hlists
    obtain ⟨d, hd, -, -, hdid⟩ := exists_movedLine node hc
    have hmem := mem_lines_of_mem_moved collate h.root h.node_ne_root hnew hkeep
      (Files.mem_names_of_mem_lines hc) hd (Or.inl fun he => hgroup (he ▸ h.node_old))
    rcases hdid with ⟨-, hdid⟩ | ⟨-, hcn, -⟩
    · exact mem_idsOf.mpr ⟨d, hmem, hdid.trans hcid⟩
    · exact absurd (hcid.symm.trans hcn) hn.1

omit hkeep in
/-- The name of the group leads to the node. -/
theorem LinesInv.leadsTo_group :
    LeadsTo S.files.names rest (processRuntime collate F node) node.groupxx node := by
  refine Or.inr ⟨rfl, (List.nodup_cons.mp h.nodup).1, h.group_notOld hnew, ?_⟩
  rw [h.lines hnew, if_pos rfl]
  exact mem_idsOf.mpr ⟨required node, required_mem_group, rfl⟩

/-- The step changes the name on a line to the group of the name at most. -/
theorem LinesInv.exists_line {p n : Id} {e : Entry} (he : e ∈ F.lines p)
    (hlead : LeadsTo S.files.names (node :: rest) F e.id n) (hkept : p ≠ node ∨ e.build ≠ .a) :
    ∃ d ∈ (processRuntime collate F node).lines p, d.build = e.build ∧ d.prio = e.prio ∧
      LeadsTo S.files.names rest (processRuntime collate F node) d.id n := by
  obtain ⟨d, hd, hbuild, hprio, hdid⟩ := exists_movedLine node he
  refine ⟨d, mem_lines_of_mem_moved collate h.root h.node_ne_root hnew hkeep
    (Files.mem_names_of_mem_lines he) hd (hbuild ▸ hkept), hbuild, hprio, ?_⟩
  rcases hdid with ⟨-, hdid⟩ | ⟨-, hnid, hdid⟩
  · exact hdid ▸ h.leadsTo_step hnew hkeep hlead
  · -- the name was the node's, which no group has
    have hn : n = node := by
      rcases hlead with hid | ⟨hid, -, hgroup, -⟩
      · exact hid.symm.trans hnid
      · exact absurd (hid.symm.trans hnid ▸ h.node_old) hgroup
    rw [hdid, hn]
    exact h.leadsTo_group hnew

theorem LinesInv.step : S.LinesInv rest (processRuntime collate F node) where
  toNodesInv := h.toNodesInv.step hnew
  edges p e he hbuild hid := by
    have hnot : p ∈ rest → p ≠ node := by
      rintro hp rfl
      exact (List.nodup_cons.mp h.nodup).1 hp
    obtain ⟨d, hd, hdbuild, hdprio, hlead⟩ :=
      h.edges p e he (hbuild.imp_right fun hp => List.mem_cons_of_mem _ hp) hid
    obtain ⟨d', hd', hbuild', hprio', hlead'⟩ := h.exists_line hnew hkeep hd hlead
      (hbuild.symm.imp hnot fun hb => hdbuild ▸ hb)
    exact ⟨d', hd', hbuild'.trans hdbuild, hprio'.trans hdprio, hlead'⟩

end Lines

section Step

variable {rest : List Id} (h : S.RuntimeInv (node :: rest) F)
  (hok : Jhalfs.runtimeSlipFree collate F node = true)

include h hok

theorem RuntimeInv.origin_step (p : Id) (hp : p ∈ S.files.names) (d : Entry)
    (hd : d ∈ (processRuntime collate F node).lines p) (hbuild : d.build ≠ .b) :
    ∃ e ∈ S.files.lines p, e.build = d.build ∧ StandsFor S.files.names d.id e.id := by
  have hnew := groupxx_notMem hok
  rcases h.cases_line hnew hd with ⟨-, hd, -⟩ | ⟨hg, -⟩ | ⟨-, rfl⟩
  · obtain ⟨e, he, hdbuild, -, hid⟩ := exists_of_mem_moved hd
    obtain ⟨c, hc, hcbuild, hstands⟩ := h.origin p hp e he (hdbuild ▸ hbuild)
    refine ⟨c, hc, hcbuild.trans hdbuild.symm, ?_⟩
    rcases hid with ⟨hid, -⟩ | ⟨-, hnid, hid⟩
    · exact hid ▸ hstands
    · rw [hnid] at hstands
      rw [hid, ← hstands.eq_of_mem h.node_old]
      exact h.stands_group hnew
  · exact absurd (hg ▸ hp) (h.group_notOld hnew)
  · exact absurd rfl hbuild

/-- A new edge stands for a path that was there: the group stands for its node, and
root, which gets a line for the group, leads to every package. -/
theorem RuntimeInv.paths_step (x y : Id)
    (hedge : Follows (processRuntime collate F node).lines 3 x y) (m n : Id)
    (hm : StandsFor S.files.names x m) (hn : StandsFor S.files.names y n) :
    Path S.files.lines 3 m n := by
  obtain ⟨d, hd, hprio, rfl⟩ := hedge
  have hnode := h.node_old
  have hnew := groupxx_notMem hok
  have hgroup := h.stands_group hnew
  rcases h.cases_line hnew hd with ⟨-, hd, -⟩ | ⟨rfl, hline⟩ | ⟨rfl, rfl⟩
  · obtain ⟨e, he, -, hdprio, hid⟩ := exists_of_mem_moved hd
    refine h.paths x e.id ⟨e, he, hdprio ▸ hprio, rfl⟩ m n hm ?_
    rcases hid with ⟨hid, -⟩ | ⟨-, hnid, hid⟩
    · exact hid ▸ hn
    · rw [hid] at hn
      rw [hnid, ← hgroup.unique hn]
      exact .of_mem hnode
  · rw [← hgroup.unique hm]
    rcases hline with rfl | ⟨e, he, -, rfl⟩
    · rw [← (StandsFor.of_mem hnode).unique hn]
      exact Relation.ReflTransGen.refl
    · exact h.paths node e.id ⟨e, he, hprio, rfl⟩ node n (.of_mem hnode) hn
  · rw [← hgroup.unique hn, ← hm.eq_of_mem S.root_mem]
    exact S.path_root hnode

theorem RuntimeInv.groups_step (n : Id) (hn : n.groupxx ∉ S.files.names) (d : Entry)
    (hd : d ∈ (processRuntime collate F node).lines n.groupxx) : d.build = .b := by
  rcases h.cases_line (groupxx_notMem hok) hd with
    ⟨-, hd, -⟩ | ⟨-, rfl | ⟨e, -, -, rfl⟩⟩ | ⟨-, rfl⟩
  · obtain ⟨e, he, hbuild, -, -⟩ := exists_of_mem_moved hd
    exact hbuild.trans (h.groups n hn e he)
  · rfl
  · rfl
  · rfl

theorem RuntimeInv.step : S.RuntimeInv rest (processRuntime collate F node) where
  toLinesInv := h.toLinesInv.step (groupxx_notMem hok) (keepsOthers_of_slipFree hok)
  rest_after m hm := h.rest_after m (List.mem_cons_of_mem _ hm)
  reach _ hn := dependsOn_processRuntime h.root h.node_ne_root hok h.reach hn
  stands x hx := by
    rcases (h.mem_names (groupxx_notMem hok)).mp hx with rfl | hx
    · exact ⟨node, h.stands_group (groupxx_notMem hok)⟩
    · exact h.stands x hx
  origin := h.origin_step hok
  paths := h.paths_step hok
  groups := h.groups_step hok
  made n hn hmem := by
    rcases (h.mem_names (groupxx_notMem hok)).mp hmem with heq | hmem
    · exact Id.groupxx_injective heq ▸ h.rest_after node List.mem_cons_self
    · exact h.made n hn hmem

end Step

variable (S)

/-- The first loop keeps the lines whose node has a file. -/
theorem mem_lines_danglingLoop {p : Id} {e : Entry} (he : e ∈ S.files.lines p)
    (hid : e.id ∈ S.files.names) : e ∈ (danglingLoop collate S.files).lines p := by
  rw [lines_danglingLoop]
  split
  · exact he
  · exact List.mem_filter.mpr ⟨he, decide_eq_true hid⟩

theorem of_mem_lines_danglingLoop {p : Id} {e : Entry}
    (he : e ∈ (danglingLoop collate S.files).lines p) :
    e ∈ S.files.lines p ∧ e.id ∈ S.files.names := by
  rw [lines_danglingLoop] at he
  split at he
  · next hp =>
    refine ⟨he, ?_⟩
    rw [hp, S.lines_root] at he
    obtain ⟨t, ht, rfl⟩ := List.mem_map.mp he
    exact S.target_mem ht
  · rw [List.mem_filter, decide_eq_true_iff] at he
    exact he

theorem runtimeInv_danglingLoop :
    S.RuntimeInv ((danglingLoop collate S.files).nodesWith collate .a)
      (danglingLoop collate S.files) where
  nodup := Files.nodup_nodesWith _ _ _
  rest_old m hm := by
    obtain ⟨e, he, -⟩ := Files.mem_nodesWith.mp hm
    exact Files.mem_names_of_mem_lines (S.of_mem_lines_danglingLoop he).1
  rest_root hm := by
    obtain ⟨e, he, hbuild⟩ := Files.mem_nodesWith.mp hm
    rw [lines_danglingLoop, if_pos rfl, S.lines_root] at he
    obtain ⟨t, -, rfl⟩ := List.mem_map.mp he
    cases hbuild
  rest_after m hm := by
    obtain ⟨e, he, hbuild⟩ := Files.mem_nodesWith.mp hm
    exact ⟨e, (S.of_mem_lines_danglingLoop he).1, hbuild⟩
  names n hn := by
    rw [names_danglingLoop]
    exact hn
  targets p e he := by
    rw [names_danglingLoop]
    exact (S.of_mem_lines_danglingLoop he).2
  reach n hn := by
    rw [names_danglingLoop] at hn
    have hpath := S.path_root hn
    induction hpath with
    | refl => exact Relation.ReflTransGen.refl
    | tail _ hedge ih =>
      obtain ⟨e, he, -, rfl⟩ := hedge
      exact (ih (Files.mem_names_of_mem_lines he)).tail
        (mem_idsOf.mpr ⟨e, S.mem_lines_danglingLoop he hn, rfl⟩)
  edges p e he _ hid := ⟨e, S.mem_lines_danglingLoop he hid, rfl, rfl, Or.inl rfl⟩
  stands x hx := by
    rw [names_danglingLoop] at hx
    exact ⟨x, .of_mem hx⟩
  origin p _ d hd _ := by
    obtain ⟨hd, hid⟩ := S.of_mem_lines_danglingLoop hd
    exact ⟨d, hd, rfl, .of_mem hid⟩
  paths x y hedge m n hm hn := by
    obtain ⟨e, he, hp, rfl⟩ := hedge
    obtain ⟨he, hid⟩ := S.of_mem_lines_danglingLoop he
    rw [← hm.eq_of_mem (Files.mem_names_of_mem_lines he), ← hn.eq_of_mem hid]
    exact Relation.ReflTransGen.single ⟨e, he, hp, rfl⟩
  groups n hn d hd :=
    absurd (Files.mem_names_of_mem_lines (S.of_mem_lines_danglingLoop hd).1) hn
  made n hn hmem := by
    rw [names_danglingLoop] at hmem
    exact absurd hmem hn

/-- No step of the runtime loop makes a slip, in the files that it starts from. -/
def runtimeSlipFree (collate : Id → Id → Bool) : Bool :=
  Loop.allAlong (processRuntime collate) (Jhalfs.runtimeSlipFree collate)
    ((danglingLoop collate S.files).nodesWith collate .a) (danglingLoop collate S.files)

/-- The files after the first two loops. -/
def afterRuntime (collate : Id → Id → Bool) : Files :=
  runtimeLoop collate (danglingLoop collate S.files)

theorem runtimeInv_afterRuntime (h : S.runtimeSlipFree collate = true) :
    S.RuntimeInv [] (S.afterRuntime collate) :=
  Loop.foldl_invariant_guarded (I := fun rest F => S.RuntimeInv rest F)
    (fun _ _ _ hinv hok => hinv.step hok) S.runtimeInv_danglingLoop h

/-- Every before edge of the input whose end has a file is there after the two loops, or goes
through the group of its end, which lists the end. -/
def KeepsBefore (collate : Id → Id → Bool) : Prop :=
  ∀ p, ∀ e ∈ S.files.lines p, e.build = .b → e.id ∈ S.files.names →
    e.id ∈ idsOf ((S.afterRuntime collate).lines p) ∨
      (e.id.groupxx ∈ idsOf ((S.afterRuntime collate).lines p) ∧
        e.id ∈ idsOf ((S.afterRuntime collate).lines e.id.groupxx))

/-- Every package that had a file is reachable from root, and the before edges are kept, in the
files that the first two loops leave. -/
def KeepsAll (collate : Id → Id → Bool) : Prop :=
  (∀ n ∈ S.files.names, DependsOn (S.afterRuntime collate).lines rootId n) ∧
    S.KeepsBefore collate

variable {S} in
theorem LinesInv.keepsBefore (h : S.LinesInv [] (S.afterRuntime collate)) :
    S.KeepsBefore collate := by
  intro p e he hbuild hid
  have hnot : e.build ≠ .a := by
    rw [hbuild]
    decide
  obtain ⟨d, hd, -, -, hlead⟩ := h.edges p e he (Or.inl hnot) hid
  rcases hlead with hdid | ⟨hdid, -, -, hlists⟩
  · exact Or.inl (mem_idsOf.mpr ⟨d, hd, hdid⟩)
  · exact Or.inr ⟨mem_idsOf.mpr ⟨d, hd, hdid⟩, hlists⟩

/-- **The dangling and runtime loops lose nothing** when no step makes a slip. The invariant of the
runtime loop says which line of the input each line stands for, and that what root led to it
still leads to. -/
theorem keepsAll_of_slipFree (h : S.runtimeSlipFree collate = true) : S.KeepsAll collate := by
  have hinv := S.runtimeInv_afterRuntime h
  exact ⟨fun n hn => hinv.reach n (hinv.names n hn), hinv.toLinesInv.keepsBefore⟩

end Subgraph

section

open Sample

def askW : Request := .all [w] (by decide +kernel)

def askXY : Request := .all [xy] (by decide +kernel)

/-- The order in which the files were made. -/
def unsorted : Id → Id → Bool := fun _ _ => true

end

end Jhalfs
