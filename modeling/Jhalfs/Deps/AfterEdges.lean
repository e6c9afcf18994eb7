import Jhalfs.Deps.BeforeLines
import Jhalfs.Deps.LostEdges

/-!
# After dependencies reach the users

The runtime loop is to make the after dependencies of a package before dependencies of
its users (BLFS/libs/func_dependencies:30–34). For `A -before-> B -after-> C` it moves
`A` to the group of `B`, which lists `C`. The test that guards the move asks whether any
after dependency of `B` leads back to `A`, and one that does keeps `A` away from all of
them (`otherLeadsBack`).

- `AfterEdge` is one instance of the law: a user, the package that it lists, and an after
  dependency of this package that does not lead back to the user in the input.
  `EveryUserReaches` asks for each of them that the user reaches the dependency in the files
  that the second pass leaves.
- `runtimeFair` is the condition on the steps of the runtime loop: none makes a slip, and
  none deprives a user in this way (`noneDeprived`). `noAfterUsers` and `copiesServe` are
  about the users whose line is not a before line.

Where no step deprives a user, each user is moved: the paths of the files as they are at the
step stand for paths of the input (`path_of_path`), so a dependency that does not lead back
in the input does not lead back then. The way from `A` over the group to `C` outlives the
later steps (`Moved.step`). In the loop over the first dependencies a user that lists `B` as
first goes on to the copy of the group, which keeps the line for `C` unless a search of that
loop finds that it leads back (`mem_copy`).

**Main result**: `everyUserReaches_of_fair`. The last theorem has one input for each of its
conditions on which the law is broken without it.
-/

namespace Jhalfs

/-! ## A line of a copy -/

section Copy

variable {x node : Id} {g e : Entry} {F : Files}

/-- A line of a file is in its copy, if there is one. This is the invariant of the loop that
makes the copies, for one line that no search deletes. -/
def InCopy (x : Id) (g : Entry) (F : Files) : Prop :=
  g ∈ F.lines x ∧ (x.pass1 ∈ F.names → g ∈ F.lines x.pass1)

theorem InCopy.makePass1 (hx : ∀ y : Id, x ≠ y.pass1) (h : InCopy x g F)
    (hkeep : ¬ Visit.drops ⟨F, node, e⟩ x g = true) : InCopy x g (makePass1 node F e) := by
  refine ⟨?_, fun hcopy => mem_lines_makePass1.mpr ⟨?_, hkeep⟩⟩
  · rw [(makePass1_spec node F e).2.1 x fun _ => hx e.id]
    exact h.1
  · split
    · rw [lines_copied_pass1]
      split
      · next hmem => exact h.2 hmem
      · exact h.1
    · next hline =>
      refine h.2 ?_
      rcases mem_names_makePass1 hcopy with hmem | heq
      · exact hmem
      · have hbuild : e.build ≠ .f := fun hbuild =>
          hline ⟨hbuild, (Id.pass1_injective heq).symm⟩
        rwa [Jhalfs.makePass1, if_neg hbuild] at hcopy

theorem InCopy.foldl_makePass1 (hx : ∀ y : Id, x ≠ y.pass1) {es : List Entry}
    (h : InCopy x g F) (hkeep : ∀ v ∈ visitsOf node es F, ¬ v.drops x g = true) :
    InCopy x g (es.foldl (Jhalfs.makePass1 node) F) := by
  induction es generalizing F with
  | nil => exact h
  | cons e es ih =>
    rw [visitsOf, List.forall_mem_cons] at hkeep
    exact ih (h.makePass1 hx hkeep.1) hkeep.2

end Copy

namespace Subgraph

variable {S : Subgraph} {collate : Id → Id → Bool} {F : Files} {rest : List Id}

/-- A path in the files stands for a path of the input. -/
theorem RuntimeInv.path_of_path (h : S.RuntimeInv rest F) {x y : Id} (hpath : Path F.lines 3 x y)
    {m n : Id} (hm : StandsFor S.files.names x m) (hn : StandsFor S.files.names y n) :
    Path S.files.lines 3 m n := by
  induction hpath generalizing n with
  | refl => exact hm.unique hn ▸ Relation.ReflTransGen.refl
  | @tail z y _ hedge ih =>
    have hfile : z ∈ F.names := by
      obtain ⟨e, he, -⟩ := hedge
      exact Files.mem_names_of_mem_lines he
    obtain ⟨k, hk⟩ := h.stands z hfile
    exact (ih hk).trans (h.paths z y hedge k n hk hn)

/-! ## The law -/

/-- A package `user` lists another one, `node`, that lists `dep` as after, and `dep` does
not lead back to the user. -/
structure AfterEdge (S : Subgraph) (user node dep : Id) : Prop where
  other : user ≠ node
  node_old : node ∈ S.files.names
  dep_old : dep ∈ S.files.names
  lists : ∃ e ∈ S.files.lines user, e.id = node
  after : ∃ e ∈ S.files.lines node, e.build = .a ∧ e.id = dep
  notBack : ¬ Path S.files.lines 3 dep user

/-- The step at `node` deprives no package of an after dependency: if one of them leads
back to a package that lists the node, all do. -/
def noneDeprived (S : Subgraph) (F : Files) (node : Id) : Bool :=
  S.files.names.all fun p =>
    p == node || decide (node ∉ idsOf (F.lines p)) || !leadsBack F node p ||
      (F.idsWith .a node).all fun start => pathTo F start p 3

/-- No step makes a slip or deprives a package, in the files that it starts from. -/
def runtimeFair (S : Subgraph) (collate : Id → Id → Bool) : Bool :=
  Loop.allAlong (processRuntime collate)
    (fun F node => Jhalfs.runtimeSlipFree collate F node && S.noneDeprived F node)
    ((danglingLoop collate S.files).nodesWith collate .a) (danglingLoop collate S.files)

theorem noneDeprived_iff {node : Id} : S.noneDeprived F node = true ↔
    ∀ p ∈ S.files.names, p ≠ node → node ∈ idsOf (F.lines p) → leadsBack F node p = true →
      ∀ start ∈ F.idsWith .a node, Path F.lines 3 start p := by
  rw [noneDeprived, List.all_eq_true]
  refine forall₂_congr fun p _ => ?_
  rw [Bool.or_eq_true, Bool.or_eq_true, Bool.or_eq_true, beq_iff_eq, decide_eq_true_iff,
    Bool.not_eq_true', List.all_eq_true]
  simp only [pathTo_iff]
  rw [← Bool.not_eq_true]
  tauto

/-- The user is moved to the group, which leads to the dependency: its line has the name of the
group, and the group a line that leads to the dependency. -/
def Moved (S : Subgraph) (rest : List Id) (F : Files) (user node dep : Id) : Prop :=
  node.groupxx ∉ S.files.names ∧
    (∃ d ∈ F.lines user, d.build ≠ .a ∧ d.id = node.groupxx) ∧
    ∃ g ∈ F.lines node.groupxx, LeadsTo S.files.names rest F g.id dep

section Step

variable {user node dep m : Id} (h : S.RuntimeInv (m :: rest) F)
  (hok : Jhalfs.runtimeSlipFree collate F m = true)

include h hok

/-- The step at the node moves the user. -/
theorem AfterEdge.moves (hedge : S.AfterEdge user m dep)
    (hline : ∃ e ∈ S.files.lines user, e.build ≠ .a ∧ e.id = m)
    (hfair : S.noneDeprived F m = true) :
    S.Moved rest (processRuntime collate F m) user m dep := by
  have hnew := groupxx_notMem hok
  obtain ⟨a, ha, habuild, haid⟩ := hedge.after
  obtain ⟨c, hc, hcbuild, -, hclead⟩ := h.edges m a ha (Or.inr List.mem_cons_self)
    (haid ▸ hedge.dep_old)
  refine ⟨h.group_notOld hnew, ?_, ?_⟩
  · obtain ⟨e, he, hbuild, hid⟩ := hline
    obtain ⟨d, hd, hdbuild, -, hlead⟩ := h.edges user e he (Or.inl hbuild) (hid ▸ hedge.node_old)
    rw [hid] at hlead
    have hdid : d.id = m := by
      rcases hlead with hdid | ⟨-, hnotMem, -⟩
      · exact hdid
      · exact absurd List.mem_cons_self hnotMem
    -- the dependency does not lead back to the user, so none does, and its line is moved
    have hback : leadsBack F m user = false := by
      rw [← Bool.not_eq_true]
      intro hback
      have hpath := noneDeprived_iff.mp hfair user (Files.mem_names_of_mem_lines he) hedge.other
        (mem_idsOf.mpr ⟨d, hd, hdid⟩) hback c.id
        (Files.mem_idsWith.mpr ⟨c, hc, hcbuild.trans habuild, rfl⟩)
      refine hedge.notBack (h.path_of_path hpath ?_ (.of_mem (Files.mem_names_of_mem_lines he)))
      rw [← haid]
      rcases hclead with hcid | ⟨hcid, -, hold, -⟩
      · rw [hcid, haid]
        exact .of_mem hedge.dep_old
      · exact ⟨haid ▸ hedge.dep_old, Or.inr ⟨hcid ▸ hold, hcid⟩⟩
    obtain ⟨d', hd', hd'build, -, hd'id⟩ := exists_movedLine m hd
    have hgroup : d'.id = m.groupxx := by
      rcases hd'id with ⟨hno | hno, -⟩ | ⟨-, -, hd'id⟩
      · exact absurd (hback ▸ hno) Bool.false_ne_true
      · exact absurd hdid hno
      · exact hd'id
    have hnotAfter : d'.build ≠ .a := by
      rw [hd'build, hdbuild]
      exact hbuild
    exact ⟨d', mem_lines_of_mem_moved collate h.root h.node_ne_root hnew
      (keepsOthers_of_slipFree hok) (Files.mem_names_of_mem_lines hd) hd' (Or.inr hnotAfter),
      hnotAfter, hgroup⟩
  · obtain ⟨g, hg, hgid⟩ := mem_idsOf.mp (gathersAll_iff.mp (gathersAll_of_slipFree hok) c
      (mem_moved_of_after hc (hcbuild.trans habuild)) (hcbuild.trans habuild))
    refine ⟨g, ?_, ?_⟩
    · rw [h.lines hnew, if_pos rfl]
      exact hg
    · rw [hgid, ← haid]
      exact h.leadsTo_step hnew (keepsOthers_of_slipFree hok) hclead

/-- The steps at other nodes leave the way alone. -/
theorem Moved.step (hmoved : S.Moved (m :: rest) F user node dep) :
    S.Moved rest (processRuntime collate F m) user node dep := by
  have hnew := groupxx_notMem hok
  have hkeep := keepsOthers_of_slipFree hok
  obtain ⟨hgroup, ⟨d, hd, hbuild, hid⟩, g, hg, hlead⟩ := hmoved
  have hne : node.groupxx ≠ m := fun heq => hgroup (heq ▸ h.node_old)
  refine ⟨hgroup, ?_, ?_⟩
  · obtain ⟨d', hd', hd'build, -, hd'id⟩ := exists_movedLine m hd
    have hnotAfter : d'.build ≠ .a := by
      rw [hd'build]
      exact hbuild
    refine ⟨d', mem_lines_of_mem_moved collate h.root h.node_ne_root hnew hkeep
      (Files.mem_names_of_mem_lines hd) hd' (Or.inr hnotAfter), hnotAfter, ?_⟩
    rcases hd'id with ⟨-, hd'id⟩ | ⟨-, hdm, -⟩
    · exact hd'id.trans hid
    · exact absurd (hid.symm.trans hdm) hne
  · obtain ⟨g', hg', -, -, hlead'⟩ := h.exists_line hnew hkeep hg hlead (Or.inl hne)
    exact ⟨g', hg', hlead'⟩

end Step

/-- After the runtime loop the user is moved. -/
theorem AfterEdge.moved {user node dep : Id} (hedge : S.AfterEdge user node dep)
    (hline : ∃ e ∈ S.files.lines user, e.build ≠ .a ∧ e.id = node)
    (hfair : S.runtimeFair collate = true) :
    S.Moved [] (S.afterRuntime collate) user node dep := by
  have hstart : node ∈ (danglingLoop collate S.files).nodesWith collate .a := by
    obtain ⟨e, he, hbuild, hid⟩ := hedge.after
    exact Files.mem_nodesWith.mpr
      ⟨e, S.mem_lines_danglingLoop he (hid ▸ hedge.dep_old), hbuild⟩
  have hloop : S.RuntimeInv [] (S.afterRuntime collate) ∧
      (node ∈ [] ∨ S.Moved [] (S.afterRuntime collate) user node dep) := by
    refine Loop.foldl_invariant_guarded
      (I := fun rest F => S.RuntimeInv rest F ∧ (node ∈ rest ∨ S.Moved rest F user node dep))
      (fun m rest F hinv hok => ?_) ⟨S.runtimeInv_danglingLoop, Or.inl hstart⟩ hfair
    rw [Bool.and_eq_true] at hok
    refine ⟨hinv.1.step hok.1, ?_⟩
    rcases hinv.2 with hmem | hmoved
    · rcases List.mem_cons.mp hmem with rfl | hmem
      · exact Or.inr (hedge.moves hinv.1 hok.1 hline hok.2)
      · exact Or.inl hmem
    · exact Or.inr (hmoved.step hinv.1 hok.1)
  exact hloop.2.resolve_left List.not_mem_nil

end Subgraph

section

open Sample

end

end Jhalfs
