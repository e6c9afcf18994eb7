import Jhalfs.Deps.Groups

/-!
# Which runs of the first two loops lose something

A run without slips loses nothing (`keepsAll_of_slipFree`). The other way round a
package that one step cuts off may be reachable in another way, but a before edge
that is deleted stays deleted. So for the before edges the condition on the steps is
exact, where no package is named like the group of another (`keepsBefore_iff`): they
are all kept if and only if no step of the loop deletes a line that is not an after
one along with the after lines.

The loop is followed without the guard here. What carries the induction is that a
file of the input only holds lines of the input, with the group of a name at most in
place of the name, and never holds both (`OriginInv`): when the line of a name is
deleted, no other line of the file stands for the package.

- `OriginInv.step`: every step keeps the invariant, slip or not.
- `OriginInv.exists_lost`: a step that deletes a line along with the after lines
  loses the edge of this line.
- `OriginInv.lost_step`: what is lost stays lost, as no step makes a line for a
  package that the file does not have.
- `keepsAll_and_keepsBefore_iff` is both results together: what a run without slips
  keeps, and when the before edges are kept.
-/

namespace Jhalfs

namespace Subgraph

variable (S : Subgraph)

/-- No package is named like the group of a package. -/
def noGroupNamed : Bool := S.files.names.all fun n => decide (n.groupxx ∉ S.files.names)

/-- There are before and after edges only. -/
def noFirst : Bool := S.files.names.all fun p => (S.files.lines p).all fun e => e.build != .f

/-- No step of the runtime loop deletes other lines along with the after lines, in the files
that it starts from. -/
def keepsOthersAlong (collate : Id → Id → Bool) : Bool :=
  Loop.allAlong (processRuntime collate) keepsOthers
    ((danglingLoop collate S.files).nodesWith collate .a) (danglingLoop collate S.files)

variable {S}

theorem noGroupNamed_iff : S.noGroupNamed = true ↔
    ∀ n ∈ S.files.names, n.groupxx ∉ S.files.names := by
  simp [noGroupNamed]

theorem build_of_noFirst (h : S.noFirst = true) {p : Id} {e : Entry} (he : e ∈ S.files.lines p) :
    e.build ≠ .f := by
  have := List.all_eq_true.mp h p (Files.mem_names_of_mem_lines he)
  exact bne_iff_ne.mp (List.all_eq_true.mp this e he)

variable (S) in
/-- What holds before each step of the runtime loop, slip or not, with the nodes `rest`
left: their groups are still to be made (`fresh`), and the file of a package holds lines
of the input that stand for what they stood for (`own`), under one name (`apart`). -/
structure OriginInv (rest : List Id) (F : Files) : Prop extends S.NodesInv rest F where
  fresh : ∀ m ∈ rest, m.groupxx ∉ F.names
  own : ∀ p ∈ S.files.names, p ≠ rootId → ∀ d ∈ F.lines p,
    ∃ e ∈ S.files.lines p, e.build = d.build ∧ StandsFor S.files.names d.id e.id
  apart : ∀ p ∈ S.files.names, p ≠ rootId → ∀ n ∈ S.files.names, n ∈ idsOf (F.lines p) →
    n.groupxx ∉ idsOf (F.lines p)

/-- The file of `p` has no line for `n` any more, neither under its own name nor under that of
its group. -/
def Lost (p n : Id) (F : Files) : Prop :=
  n ∉ idsOf (F.lines p) ∧ n.groupxx ∉ idsOf (F.lines p)

section Step

variable {collate : Id → Id → Bool} {F : Files} {node : Id} {rest : List Id}
  (h : S.OriginInv (node :: rest) F)

include h

theorem OriginInv.notMem : node.groupxx ∉ F.names := h.fresh _ List.mem_cons_self

/-- The lines that the file of a package has after the step. -/
theorem OriginInv.of_mem_lines {p : Id} (hp : p ∈ S.files.names) (hroot : p ≠ rootId) {d : Entry}
    (hd : d ∈ (processRuntime collate F node).lines p) :
    d ∈ movedLines F node p ∧ (p = node → d.id ∉ F.idsWith .a node) := by
  rcases h.cases_line h.notMem hd with ⟨-, hd⟩ | ⟨hg, -⟩ | ⟨hr, -⟩
  · exact hd
  · exact absurd (hg ▸ hp) (h.group_notOld h.notMem)
  · exact absurd hr hroot

/-- Moving a file to the group takes all lines of the node, so the node and its group
are never both in the file. -/
theorem OriginInv.apart_moved {p n : Id} (hp : p ∈ S.files.names) (hroot : p ≠ rootId)
    (hn : n ∈ S.files.names) (hmem : n ∈ idsOf (movedLines F node p)) :
    n.groupxx ∉ idsOf (movedLines F node p) := by
  intro hgroup
  obtain ⟨d, hd, hdid⟩ := mem_idsOf.mp hmem
  obtain ⟨g, hg, hgid⟩ := mem_idsOf.mp hgroup
  obtain ⟨e, he, -, -, ⟨hid, hstays⟩ | ⟨-, -, hid⟩⟩ := exists_of_mem_moved hd
  · have hin : n ∈ idsOf (F.lines p) := mem_idsOf.mpr ⟨e, he, hid.symm.trans hdid⟩
    obtain ⟨c, hc, -, -, ⟨hcid, -⟩ | ⟨hback, -, hcid⟩⟩ := exists_of_mem_moved hg
    · exact h.apart p hp hroot n hn hin (mem_idsOf.mpr ⟨c, hc, hcid.symm.trans hgid⟩)
    · have hnode : n = node := Id.groupxx_injective (hgid.symm.trans hcid)
      rcases hstays with hstays | hstays
      · exact absurd (hback ▸ hstays) Bool.false_ne_true
      · exact hstays (hid.symm.trans (hdid.trans hnode))
  · exact h.group_notOld h.notMem (hid.symm.trans hdid ▸ hn)

theorem OriginInv.step : S.OriginInv rest (processRuntime collate F node) where
  toNodesInv := h.toNodesInv.step h.notMem
  fresh m hm := by
    rw [h.mem_names h.notMem, not_or]
    refine ⟨fun heq => ?_, h.fresh m (List.mem_cons_of_mem _ hm)⟩
    exact (List.nodup_cons.mp h.nodup).1 (Id.groupxx_injective heq ▸ hm)
  own p hp hroot d hd := by
    obtain ⟨e, he, hbuild, -, hid⟩ := exists_of_mem_moved (h.of_mem_lines hp hroot hd).1
    obtain ⟨c, hc, hcbuild, hstands⟩ := h.own p hp hroot e he
    refine ⟨c, hc, hcbuild.trans hbuild.symm, ?_⟩
    rcases hid with ⟨hid, -⟩ | ⟨-, hnid, hid⟩
    · exact hid ▸ hstands
    · rw [hnid] at hstands
      rw [hid, ← hstands.eq_of_mem h.node_old]
      exact h.stands_group h.notMem
  apart p hp hroot n hn hmem hgroup := by
    have hsub : ∀ m, m ∈ idsOf ((processRuntime collate F node).lines p) →
        m ∈ idsOf (movedLines F node p) := by
      intro m hm
      obtain ⟨d, hd, hid⟩ := mem_idsOf.mp hm
      exact mem_idsOf.mpr ⟨d, (h.of_mem_lines hp hroot hd).1, hid⟩
    exact h.apart_moved hp hroot hn (hsub n hmem) (hsub _ hgroup)

/-- A line for a package that is not there is not made. -/
theorem OriginInv.lost_step (hgroups : S.noGroupNamed = true) {p n : Id} (hp : p ∈ S.files.names)
    (hroot : p ≠ rootId) (hn : n ∈ S.files.names) (hlost : Lost p n F) :
    Lost p n (processRuntime collate F node) := by
  constructor
  · intro hmem
    obtain ⟨d, hd, hdid⟩ := mem_idsOf.mp hmem
    obtain ⟨e, he, -, -, ⟨hid, -⟩ | ⟨-, -, hid⟩⟩ :=
      exists_of_mem_moved (h.of_mem_lines hp hroot hd).1
    · exact hlost.1 (mem_idsOf.mpr ⟨e, he, hid.symm.trans hdid⟩)
    · exact noGroupNamed_iff.mp hgroups node h.node_old (hid.symm.trans hdid ▸ hn)
  · intro hmem
    obtain ⟨d, hd, hdid⟩ := mem_idsOf.mp hmem
    obtain ⟨e, he, -, -, ⟨hid, -⟩ | ⟨-, heid, hid⟩⟩ :=
      exists_of_mem_moved (h.of_mem_lines hp hroot hd).1
    · exact hlost.2 (mem_idsOf.mpr ⟨e, he, hid.symm.trans hdid⟩)
    · have hnode : n = node := Id.groupxx_injective (hdid.symm.trans hid)
      exact hlost.1 (mem_idsOf.mpr ⟨e, he, heid.trans hnode.symm⟩)

/-- A step that deletes another line along with the after lines loses its edge. -/
theorem OriginInv.exists_lost (hno : keepsOthers F node = false) :
    ∃ e ∈ S.files.lines node, e.build ≠ .a ∧ e.id ∈ S.files.names ∧
      Lost node e.id (processRuntime collate F node) := by
  have hroot := h.node_ne_root
  have hnot : ¬ ∀ d ∈ movedLines F node node, d.build ≠ .a → d.id ∉ F.idsWith .a node := by
    rw [← keepsOthers_iff, hno]
    exact Bool.false_ne_true
  push Not at hnot
  obtain ⟨d, hd, hbuild, hafter⟩ := hnot
  obtain ⟨c, hc, hcbuild, -, hid⟩ := exists_of_mem_moved hd
  have hcid : c.id = d.id := by
    rcases hid with ⟨hid, -⟩ | ⟨-, -, hid⟩
    · exact hid.symm
    · -- no line names the group yet
      obtain ⟨g, hg, -, hgid⟩ := Files.mem_idsWith.mp hafter
      exact absurd (hgid.trans hid ▸ h.targets node g hg) h.notMem
  obtain ⟨e, he, hebuild, hstands⟩ := h.own node h.node_old hroot c hc
  refine ⟨e, he, ?_, hstands.1, ?_⟩
  · rw [hebuild, ← hcbuild]
    exact hbuild
  have hgone : d.id ∉ idsOf ((processRuntime collate F node).lines node) := by
    intro hmem
    obtain ⟨g, hg, hgid⟩ := mem_idsOf.mp hmem
    exact (h.of_mem_lines h.node_old hroot hg).2 rfl (hgid ▸ hafter)
  have hmoved : d.id ∈ idsOf (movedLines F node node) := mem_idsOf.mpr ⟨d, hd, rfl⟩
  have hsub : ∀ m, m ∈ idsOf ((processRuntime collate F node).lines node) →
      m ∈ idsOf (movedLines F node node) := by
    intro m hm
    obtain ⟨g, hg, hgid⟩ := mem_idsOf.mp hm
    exact mem_idsOf.mpr ⟨g, (h.of_mem_lines h.node_old hroot hg).1, hgid⟩
  rw [hcid] at hstands
  -- the line had one of the two names, and the other was not in the file
  rcases hstands.2 with ⟨-, hname⟩ | ⟨-, hname⟩
  · rw [← hname]
    refine ⟨hgone, fun hgroup => ?_⟩
    exact h.apart_moved h.node_old hroot (hname ▸ hstands.1) hmoved (hsub _ hgroup)
  · refine ⟨fun hmem => ?_, hname ▸ hgone⟩
    exact h.apart_moved h.node_old hroot hstands.1 (hsub _ hmem) (hname ▸ hmoved)

end Step

variable (S) (collate : Id → Id → Bool)

theorem originInv_danglingLoop (hgroups : S.noGroupNamed = true) :
    S.OriginInv ((danglingLoop collate S.files).nodesWith collate .a)
      (danglingLoop collate S.files) where
  toNodesInv := S.runtimeInv_danglingLoop.toNodesInv
  fresh m hm := by
    rw [names_danglingLoop]
    exact noGroupNamed_iff.mp hgroups m (S.runtimeInv_danglingLoop.rest_old m hm)
  own p _ _ d hd := by
    obtain ⟨hd, hid⟩ := S.of_mem_lines_danglingLoop hd
    exact ⟨d, hd, rfl, .of_mem hid⟩
  apart p _ _ n hn _ hgroup := by
    obtain ⟨d, hd, hid⟩ := mem_idsOf.mp hgroup
    exact noGroupNamed_iff.mp hgroups n hn (hid ▸ (S.of_mem_lines_danglingLoop hd).2)

variable {collate}

/-- Where no package is named like a group, the before edges are kept exactly if no step
deletes another line along with the after lines. -/
theorem keepsBefore_iff (hgroups : S.noGroupNamed = true) (hfirst : S.noFirst = true) :
    S.KeepsBefore collate ↔ S.keepsOthersAlong collate = true := by
  have hstart := S.originInv_danglingLoop collate hgroups
  constructor
  · intro hkeeps
    by_contra hno
    obtain ⟨p, e, he, hbuild, hid, hlost⟩ := Loop.foldl_of_not_allAlong
      (I := fun rest F => S.OriginInv rest F)
      (J := fun F => ∃ p, ∃ e ∈ S.files.lines p, e.build = .b ∧ e.id ∈ S.files.names ∧
        p ≠ rootId ∧ Lost p e.id F)
      (fun _ _ _ hinv => hinv.step)
      (fun node _ _ hinv hno => by
        obtain ⟨e, he, hbuild, hid, hlost⟩ := hinv.exists_lost hno
        have hb : e.build = .b := by
          have hf := build_of_noFirst hfirst he
          cases hcase : e.build with
          | b => rfl
          | a => exact absurd hcase hbuild
          | f => exact absurd hcase hf
        exact ⟨node, e, he, hb, hid, hinv.node_ne_root, hlost⟩)
      (fun _ _ _ hinv ⟨p, e, he, hbuild, hid, hroot, hlost⟩ =>
        ⟨p, e, he, hbuild, hid, hroot,
          hinv.lost_step hgroups (Files.mem_names_of_mem_lines he) hroot hid hlost⟩)
      hstart (Bool.not_eq_true _ ▸ hno)
    rcases hkeeps p e he hbuild hid with hmem | ⟨hmem, -⟩
    · exact hlost.2.1 hmem
    · exact hlost.2.2 hmem
  · intro hok
    have hlines := Loop.foldl_invariant_guarded
      (I := fun rest F => S.LinesInv rest F ∧ S.OriginInv rest F)
      (fun _ _ _ hinv hkeep => ⟨hinv.1.step hinv.2.notMem hkeep, hinv.2.step⟩)
      ⟨S.runtimeInv_danglingLoop.toLinesInv, hstart⟩ hok
    exact hlines.1.keepsBefore

/-- **What the dangling and runtime loops lose.** They lose nothing when no step makes a
slip; and of the before edges, where no package is named like a group, they lose some
exactly if a step deletes another line along with the after lines. -/
theorem keepsAll_and_keepsBefore_iff :
    (S.runtimeSlipFree collate = true → S.KeepsAll collate) ∧
      (S.noGroupNamed = true → S.noFirst = true →
        (S.KeepsBefore collate ↔ S.keepsOthersAlong collate = true)) :=
  ⟨S.keepsAll_of_slipFree, S.keepsBefore_iff⟩

end Subgraph

section

open Sample

/-- `w` lists `x` as before, and `x` lists `y` as after. -/
def oneGroup : Subgraph :=
  .of (.ofTable [(w, [required x]), (x, [requiredAfter y])] (by decide +kernel)) askW

/-- `w` keeps its line for `x`, by way of the group of `x`. -/
theorem oneGroup_keepsAll :
    oneGroup.KeepsAll unsorted ∧
      (oneGroup.KeepsBefore unsorted ↔ oneGroup.keepsOthersAlong unsorted = true) :=
  ⟨oneGroup.keepsAll_and_keepsBefore_iff.1 (by decide +kernel),
    oneGroup.keepsAll_and_keepsBefore_iff.2 (by decide +kernel) (by decide +kernel)⟩

/-- `xy` lists `x` as after, whose name occurs in the line `1 b xy` of the group. -/
def nestedName : Subgraph :=
  .of (.ofTable [(xy, [requiredAfter x])] (by decide +kernel)) askXY

/-- `w` lists `x` both as before and as after. -/
def listedTwice : Subgraph :=
  .of (.ofTable [(w, [required x, requiredAfter x])] (by decide +kernel)) askW

/-- The loops lose the package `x` of the one and the before edge of the other. -/
theorem nestedName_listedTwice_not_keepsAll :
    ¬ nestedName.KeepsAll unsorted ∧ ¬ listedTwice.KeepsAll unsorted := by
  constructor
  · rintro ⟨hreach, -⟩
    refine not_dependsOn_of_closed [rootId, xy.groupxx, xy] ?_ ?_ ?_
      (hreach x (by decide +kernel))
    all_goals decide +kernel
  · rintro ⟨-, hedges⟩
    have := hedges w (required x) (by decide +kernel) rfl (by decide +kernel)
    revert this
    decide +kernel

end

end Jhalfs
