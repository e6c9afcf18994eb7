import Jhalfs.Deps.CleanSubgraph

/-!
# One step of the runtime loop

What the body of the second loop of `clean_subgraph` does to each file when the
name of the group is free (`lines_processRuntime`). The parents are moved one after
the other on files that the moves have already changed, but this does not change
which parents an after dependency leads back to: the parents that are moved are
not on any path that is asked for (`leadsBack_edit`).

- `lines_danglingLoop` says what the first loop has left: all lines of root, and of
  the other files the lines whose node has a file.
- `movedLines` are the lines of a file after the loop over the parents. The loop is
  described by the files before it (`foldl_redirect`): a file is moved if it is a
  parent and nothing leads back to it.
- `gather` is what the group has after the loop over the lines of its node; a name
  that occurs in a line of the group is not added (`exists_mem_of_mem_gather`).
- `rootLine` is the line that root gets when no file was moved to the group.

The later files follow single lines through the step, so the spec is one equation
for the lines of any file after the step, by cases on which file it is.
-/

namespace Jhalfs

/-! ## Files and their order -/

@[simp] theorem Files.mem_ls {F : Files} {collate : Id → Id → Bool} {n : Id} :
    n ∈ F.ls collate ↔ n ∈ F.names := List.mem_insertionSort _

theorem Files.nodup_ls (F : Files) (collate : Id → Id → Bool) : (F.ls collate).Nodup :=
  (List.perm_insertionSort _ _).nodup_iff.mpr F.nodup

theorem Files.mem_idsWith {F : Files} {build : Build} {node n : Id} :
    n ∈ F.idsWith build node ↔ ∃ e ∈ F.lines node, e.build = build ∧ e.id = n :=
  mem_idsOf_filter_build

theorem Files.mem_nodesWith {F : Files} {collate : Id → Id → Bool} {build : Build} {n : Id} :
    n ∈ F.nodesWith collate build ↔ ∃ e ∈ F.lines n, e.build = build := by
  rw [nodesWith, List.mem_filter, mem_ls, List.any_eq_true]
  constructor
  · rintro ⟨-, e, he, hbuild⟩
    exact ⟨e, he, beq_iff_eq.mp hbuild⟩
  · rintro ⟨e, he, hbuild⟩
    exact ⟨mem_names_of_mem_lines he, e, he, beq_iff_eq.mpr hbuild⟩

theorem Files.nodup_nodesWith (F : Files) (collate : Id → Id → Bool) (build : Build) :
    (F.nodesWith collate build).Nodup := (F.nodup_ls collate).filter _

/-! ## Edits of one file -/

/-- A loop of edits of one file. -/
theorem names_foldl_edit {α : Type} (node : Id) (f : α → List Entry → List Entry) (as : List α)
    (F : Files) : (as.foldl (fun F a => F.edit node (f a)) F).names = F.names := by
  induction as generalizing F with
  | nil => rfl
  | cons a as ih => rw [List.foldl_cons, ih, Files.names_edit]

theorem lines_foldl_edit {α : Type} {node : Id} {f : α → List Entry → List Entry}
    (hf : ∀ a, f a [] = []) (as : List α) (F : Files) (p : Id) :
    (as.foldl (fun F a => F.edit node (f a)) F).lines p =
      if p = node then as.foldl (fun es a => f a es) (F.lines node) else F.lines p := by
  induction as generalizing F with
  | nil =>
    split
    · next h => rw [h, List.foldl_nil, List.foldl_nil]
    · rfl
  | cons a as ih =>
    rw [List.foldl_cons, ih, List.foldl_cons, Files.lines_edit_self (hf a)]
    split
    · rfl
    · next h => exact Files.lines_edit_of_ne h

theorem foldl_deleteId (ids : List Id) (es : List Entry) :
    ids.foldl (fun es id => deleteId id es) es = es.filter fun e => decide (e.id ∉ ids) := by
  induction ids generalizing es with
  | nil => simp
  | cons id ids ih =>
    rw [List.foldl_cons, ih, deleteId, List.filter_filter]
    refine List.filter_congr fun e _ => ?_
    rw [Bool.eq_iff_iff, Bool.and_eq_true, decide_eq_true_iff, decide_eq_true_iff, bne_iff_ne,
      List.mem_cons, not_or, and_comm]

/-- `for id in $ids; do sed "/\ $id\$/d" -i <node>.dep; done`. -/
theorem lines_foldl_deleteId (node : Id) (ids : List Id) (F : Files) (p : Id) :
    (ids.foldl (fun F id => F.edit node (deleteId id)) F).lines p =
      if p = node then (F.lines node).filter fun e => decide (e.id ∉ ids) else F.lines p := by
  rw [lines_foldl_edit (fun _ => rfl), foldl_deleteId]

/-! ## Dangling edges -/

theorem names_removeDangling (F : Files) (node : Id) :
    (removeDangling F node).names = F.names := by
  rw [removeDangling]
  split
  · rfl
  · exact names_foldl_edit _ _ _ _

theorem lines_removeDangling (F : Files) (node p : Id) :
    (removeDangling F node).lines p =
      if p = node ∧ node ≠ rootId then
        (F.lines node).filter fun e => decide (e.id ∈ F.names)
      else F.lines p := by
  rw [removeDangling]
  by_cases hroot : node = rootId
  · rw [if_pos hroot, if_neg fun h => h.2 hroot]
  · rw [if_neg hroot, lines_foldl_deleteId]
    by_cases hp : p = node
    · rw [if_pos hp, if_pos ⟨hp, hroot⟩]
      refine List.filter_congr fun e he => ?_
      have hmem : e.id ∈ idsOf (F.lines node) := mem_idsOf.mpr ⟨e, he, rfl⟩
      simp [hmem]
    · rw [if_neg hp, if_neg fun h => hp h.1]

/-- The first loop keeps the lines of root, and of the other files the lines whose
node has a file. -/
theorem lines_foldl_removeDangling (nodes : List Id) (F : Files) (hnodup : nodes.Nodup) (p : Id) :
    (nodes.foldl removeDangling F).lines p =
      if p ∈ nodes ∧ p ≠ rootId then
        (F.lines p).filter fun e => decide (e.id ∈ F.names)
      else F.lines p := by
  induction nodes generalizing F with
  | nil => simp
  | cons node nodes ih =>
    rw [List.nodup_cons] at hnodup
    rw [List.foldl_cons, ih _ hnodup.2, names_removeDangling, lines_removeDangling]
    by_cases hp : p = node
    · have hnot : p ∉ nodes := hp ▸ hnodup.1
      simp [hp, hp ▸ hnot]
    · simp [hp]

theorem names_danglingLoop (collate : Id → Id → Bool) (F : Files) :
    (danglingLoop collate F).names = F.names := by
  rw [danglingLoop]
  generalize F.ls collate = nodes
  induction nodes generalizing F with
  | nil => rfl
  | cons node nodes ih => rw [List.foldl_cons, ih, names_removeDangling]

theorem lines_danglingLoop (collate : Id → Id → Bool) (F : Files) (p : Id) :
    (danglingLoop collate F).lines p =
      if p = rootId then F.lines p else (F.lines p).filter fun e => decide (e.id ∈ F.names) := by
  rw [danglingLoop, lines_foldl_removeDangling _ _ (F.nodup_ls collate)]
  by_cases hp : p = rootId
  · rw [if_neg fun h => h.2 hp, if_pos hp]
  · rw [if_neg hp]
    by_cases hfile : p ∈ F.names
    · rw [if_pos ⟨Files.mem_ls.mpr hfile, hp⟩]
    · rw [if_neg fun h => hfile (Files.mem_ls.mp h.1), F.absent p hfile, List.filter_nil]

/-! ## Moving the parents -/

namespace Entry

variable {old new : Id} {e : Entry}

@[simp] theorem rename_build : (e.rename old new).build = e.build := by
  rw [rename]
  split <;> rfl

@[simp] theorem rename_prio : (e.rename old new).prio = e.prio := by
  rw [rename]
  split <;> rfl

theorem rename_of_eq (h : e.id = old) : (e.rename old new).id = new := by rw [rename, if_pos h]

theorem rename_of_ne (h : e.id ≠ old) : e.rename old new = e := if_neg h

end Entry

theorem mem_toGroup {node : Id} {es : List Entry} {d : Entry} :
    d ∈ toGroup node es ↔ ∃ e ∈ es, e.rename node node.groupxx = d := List.mem_map

theorem toGroup_eq_self {node : Id} {es : List Entry} (h : node ∉ idsOf es) :
    toGroup node es = es :=
  (List.map_congr_left fun e he =>
    Entry.rename_of_ne fun hid => h (mem_idsOf.mpr ⟨e, he, hid⟩)).trans (List.map_id es)

theorem idsWith_toGroup {F : Files} {build : Build} {node p : Id}
    (h : node ∉ F.idsWith build p) :
    idsOf ((toGroup node (F.lines p)).filter fun e => e.build == build) = F.idsWith build p := by
  have hfilter : (toGroup node (F.lines p)).filter (fun e => e.build == build) =
      toGroup node ((F.lines p).filter fun e => e.build == build) := by
    rw [toGroup, toGroup, List.filter_map]
    congr 1
    exact List.filter_congr fun e _ => by rw [Function.comp_apply, Entry.rename_build]
  rw [hfilter, toGroup_eq_self h]
  rfl

/-- A search does not see what it does not reach. -/
theorem path_congr {lines lines' : Id → List Entry} {prio : Nat} {s q : Id}
    (h : ∀ n, Path lines prio s n → lines' n = lines n) :
    Path lines' prio s q ↔ Path lines prio s q := by
  constructor
  · intro hpath
    induction hpath with
    | refl => exact Relation.ReflTransGen.refl
    | tail _ hedge ih =>
      refine Relation.ReflTransGen.tail ih ?_
      rw [Follows, h _ ih] at hedge
      exact hedge
  · intro hpath
    induction hpath with
    | refl => exact Relation.ReflTransGen.refl
    | tail hpre hedge ih =>
      refine Relation.ReflTransGen.tail ih ?_
      rw [Follows, h _ hpre]
      exact hedge

theorem leadsBack_iff {F : Files} {node parent : Id} :
    leadsBack F node parent = true ↔
      ∃ start ∈ F.idsWith .a node, Path F.lines 3 start parent := by
  rw [leadsBack, List.any_eq_true]
  exact exists_congr fun start => and_congr_right fun _ => pathTo_iff

theorem not_leadsBack_iff {F : Files} {node parent : Id} :
    leadsBack F node parent = false ↔
      ∀ start ∈ F.idsWith .a node, ¬ Path F.lines 3 start parent := by
  rw [← Bool.not_eq_true, leadsBack_iff]
  exact ⟨fun h start hs hpath => h ⟨start, hs, hpath⟩, fun h ⟨start, hs, hpath⟩ => h start hs hpath⟩

/-- Moving a parent that no after dependency leads back to does not change what
they lead back to. -/
theorem leadsBack_edit {F : Files} {node parent : Id} (h : leadsBack F node parent = false)
    (q : Id) : leadsBack (F.edit parent (toGroup node)) node q = leadsBack F node q := by
  have hnot := not_leadsBack_iff.mp h
  have hself : ∀ p, (F.edit parent (toGroup node)).lines p =
      if p = parent then toGroup node (F.lines p) else F.lines p := by
    intro p
    split
    · next hp => rw [hp, Files.lines_edit_self rfl]
    · next hp => exact Files.lines_edit_of_ne hp
  have hstarts : (F.edit parent (toGroup node)).idsWith .a node = F.idsWith .a node := by
    rw [Files.idsWith, hself]
    split
    · next hnode =>
      exact idsWith_toGroup fun hmem => hnot node hmem (hnode ▸ Relation.ReflTransGen.refl)
    · rfl
  have hpaths : ∀ start ∈ F.idsWith .a node,
      (Path (F.edit parent (toGroup node)).lines 3 start q ↔ Path F.lines 3 start q) := by
    intro start hs
    refine path_congr fun n hn => ?_
    rw [hself, if_neg]
    rintro rfl
    exact hnot start hs hn
  rw [Bool.eq_iff_iff, leadsBack_iff, leadsBack_iff, hstarts]
  exact exists_congr fun start => and_congr_right fun hs => hpaths start hs

/-- The lines of a file after the loop over the parents, told by the files before it: they are
renamed unless an after dependency leads back to the file. -/
def movedLines (F : Files) (node p : Id) : List Entry :=
  if leadsBack F node p then F.lines p else toGroup node (F.lines p)

/-- The loop over the parents. -/
theorem foldl_redirect (F : Files) (node : Id) (b : Bool) {parents : List Id}
    (hnodup : parents.Nodup) :
    let st := parents.foldl (redirect node) (F, b)
    st.1.names = F.names ∧
      (∀ p, st.1.lines p = if p ∈ parents then movedLines F node p else F.lines p) ∧
      st.2 = (b || parents.any fun p => !leadsBack F node p) := by
  induction parents generalizing F b with
  | nil => simp
  | cons q parents ih =>
    rw [List.nodup_cons] at hnodup
    rw [List.foldl_cons, redirect, List.any_cons]
    cases hback : leadsBack F node q with
    | true =>
      obtain ⟨hnames, hlines, hb⟩ := ih F b hnodup.2
      refine ⟨hnames, fun p => ?_, ?_⟩
      · rw [if_pos rfl, hlines]
        by_cases hp : p = q
        · rw [hp, if_neg hnodup.1, if_pos List.mem_cons_self, movedLines, if_pos hback]
        · simp only [List.mem_cons, hp, false_or]
      · rw [if_pos rfl, hb]
        simp
    | false =>
      obtain ⟨hnames, hlines, hb⟩ := ih (F.edit q (toGroup node)) true hnodup.2
      -- the line that was moved changes no other answer
      have hback' := leadsBack_edit hback
      refine ⟨?_, fun p => ?_, ?_⟩
      · rw [if_neg Bool.false_ne_true, hnames, Files.names_edit]
      · rw [if_neg Bool.false_ne_true, hlines]
        by_cases hp : p = q
        · rw [hp, if_neg hnodup.1, if_pos List.mem_cons_self, Files.lines_edit_self rfl,
            movedLines, hback, if_neg Bool.false_ne_true]
        · rw [movedLines, hback', Files.lines_edit_of_ne hp, movedLines]
          simp only [List.mem_cons, hp, false_or]
      · rw [if_neg Bool.false_ne_true, hb]
        simp

section Step

variable (collate : Id → Id → Bool)

theorem mem_parentsOf {F : Files} {node p : Id} :
    p ∈ parentsOf collate F node ↔ ∃ e ∈ F.lines p, node.chars <:+ e.id.chars := by
  rw [parentsOf, List.mem_filter, Files.mem_ls, List.any_eq_true]
  constructor
  · rintro ⟨-, e, he, hsuf⟩
    exact ⟨e, he, List.isSuffixOf_iff_suffix.mp hsuf⟩
  · rintro ⟨e, he, hsuf⟩
    exact ⟨Files.mem_names_of_mem_lines he, e, he, List.isSuffixOf_iff_suffix.mpr hsuf⟩

theorem nodup_parentsOf (F : Files) (node : Id) : (parentsOf collate F node).Nodup :=
  (F.nodup_ls collate).filter _

/-- A file that is no parent has nothing to move. -/
theorem movedLines_of_notMem {F : Files} {node p : Id} (h : p ∉ parentsOf collate F node) :
    movedLines F node p = F.lines p := by
  rw [movedLines]
  split
  · rfl
  · refine toGroup_eq_self fun hmem => h ?_
    obtain ⟨e, he, hid⟩ := mem_idsOf.mp hmem
    exact (mem_parentsOf collate).mpr ⟨e, he, hid ▸ List.suffix_refl _⟩

/-- Some file with a line that ends in the name is moved to the group. -/
def someMoved (F : Files) (node : Id) : Bool :=
  (parentsOf collate F node).any fun p => !leadsBack F node p

/-- The line that the group gets in `root.dep` when no file is moved to it, so that the group is
not lost. -/
def rootLine (F : Files) (node : Id) : List Entry :=
  if someMoved collate F node then [] else [required node.groupxx]

theorem names_makeGroup {F : Files} {node : Id} (hroot : rootId ∈ F.names) {p : Id} :
    p ∈ (makeGroup collate F node).names ↔ p = node.groupxx ∨ p ∈ F.names := by
  obtain ⟨hnames, -, -⟩ := foldl_redirect F node false
    (nodup_parentsOf collate F node)
  rw [makeGroup]
  split
  · rw [Files.mem_names_write, hnames]
  · rw [Files.mem_names_append, Files.mem_names_write, hnames]
    constructor
    · rintro (rfl | h)
      · exact Or.inr hroot
      · exact h
    · exact Or.inr

theorem lines_makeGroup {F : Files} {node : Id} (p : Id) :
    (makeGroup collate F node).lines p =
      if p = node.groupxx then [required node]
      else if p = rootId then movedLines F node p ++ rootLine collate F node
      else movedLines F node p := by
  obtain ⟨-, hlines, hb⟩ := foldl_redirect F node false
    (nodup_parentsOf collate F node)
  have hmoved : ∀ q, ((parentsOf collate F node).foldl (redirect node) (F, false)).1.lines q =
      movedLines F node q := by
    intro q
    rw [hlines]
    split
    · rfl
    · next h => exact (movedLines_of_notMem collate h).symm
  have hsome : ((parentsOf collate F node).foldl (redirect node) (F, false)).2 =
      someMoved collate F node := hb
  rw [makeGroup, hsome, rootLine]
  by_cases hgroup : p = node.groupxx
  · have hne : p ≠ rootId := hgroup ▸ node.groupxx_ne_root
    rw [if_pos hgroup]
    split
    · rw [hgroup, Files.lines_write_self]
    · rw [Files.append, Files.lines_write_of_ne hne, hgroup, Files.lines_write_self]
  · rw [if_neg hgroup]
    by_cases hp : p = rootId
    · rw [if_pos hp]
      split
      · rw [Files.lines_write_of_ne hgroup, hmoved, List.append_nil]
      · rw [hp, Files.append, Files.lines_write_self, Files.lines_write_of_ne (hp ▸ hgroup),
          hmoved]
    · rw [if_neg hp]
      split
      · rw [Files.lines_write_of_ne hgroup, hmoved]
      · rw [Files.append, Files.lines_write_of_ne hp, Files.lines_write_of_ne hgroup, hmoved]

/-! ## Moving the after dependencies -/

/-- The lines of a group after the loop over the lines of its node: an after line is added as a
before line, unless `grep` finds its name somewhere in the group. -/
def gather : List Entry → List Entry → List Entry
  | group, [] => group
  | group, e :: es =>
    if e.build = .a then
      if group.any fun d => d.contains e.id then gather group es
      else gather (group ++ [{ e with build := .b }]) es
    else gather group es

theorem mem_gather_of_mem {d : Entry} {group : List Entry} (hd : d ∈ group) (es : List Entry) :
    d ∈ gather group es := by
  induction es generalizing group with
  | nil => exact hd
  | cons e es ih =>
    rw [gather]
    split
    · split
      · exact ih hd
      · exact ih (List.mem_append_left _ hd)
    · exact ih hd

/-- A line of a group is one it had, or an after dependency. -/
theorem of_mem_gather {d : Entry} {group es : List Entry} (hd : d ∈ gather group es) :
    d ∈ group ∨ ∃ e ∈ es, e.build = .a ∧ d = { e with build := .b } := by
  induction es generalizing group with
  | nil => exact Or.inl hd
  | cons e es ih =>
    have hlift : (∃ e' ∈ es, e'.build = .a ∧ d = { e' with build := .b }) →
        ∃ e' ∈ e :: es, e'.build = .a ∧ d = { e' with build := .b } :=
      fun ⟨e', he', h⟩ => ⟨e', List.mem_cons_of_mem _ he', h⟩
    rw [gather] at hd
    split at hd
    · next hbuild =>
      split at hd
      · exact (ih hd).imp_right hlift
      · rcases ih hd with h | h
        · rcases List.mem_append.mp h with h | h
          · exact Or.inl h
          · exact Or.inr ⟨e, List.mem_cons_self, hbuild, List.mem_singleton.mp h⟩
        · exact Or.inr (hlift h)
    · exact (ih hd).imp_right hlift

/-- A name that occurs in a line of the group is not added any more. -/
theorem exists_mem_of_mem_gather {id : Id} {group es : List Entry}
    (hin : (group.any fun d => d.contains id) = true) {d : Entry} (hd : d ∈ gather group es)
    (hid : d.id = id) : ∃ g ∈ group, g.id = id := by
  induction es generalizing group with
  | nil => exact ⟨d, hd, hid⟩
  | cons e es ih =>
    rw [gather] at hd
    split at hd
    · split at hd
      · exact ih hin hd
      · next hout =>
        obtain ⟨g, hg, hgid⟩ := ih (by rw [List.any_append, hin, Bool.true_or]) hd
        refine ⟨g, (List.mem_append.mp hg).resolve_right fun hg => hout ?_, hgid⟩
        rw [List.mem_singleton.mp hg] at hgid
        exact (show e.id = id from hgid) ▸ hin
    · exact ih hin hd

/-- The loop over the lines of a node whose group has a file. -/
theorem foldl_moveAfter (node : Id) (es : List Entry) {F : Files}
    (hgroup : node.groupxx ∈ F.names) :
    (∀ p, p ∈ (es.foldl (moveAfter node) F).names ↔ p ∈ F.names) ∧
      ∀ p, (es.foldl (moveAfter node) F).lines p =
        if p = node.groupxx then gather (F.lines node.groupxx) es else F.lines p := by
  induction es generalizing F with
  | nil =>
    refine ⟨fun _ => Iff.rfl, fun p => ?_⟩
    split
    · next h => rw [h]; rfl
    · rfl
  | cons e es ih =>
    rw [List.foldl_cons, moveAfter, gather]
    split
    · split
      · exact ih hgroup
      · have hmem : ∀ p, p ∈ (F.append node.groupxx { e with build := .b }).names ↔
            p ∈ F.names := by
          intro p
          rw [Files.mem_names_append]
          constructor
          · rintro (rfl | h)
            · exact hgroup
            · exact h
          · exact Or.inr
        obtain ⟨hnames, hlines⟩ := ih ((hmem _).mpr hgroup)
        refine ⟨fun p => (hnames p).trans (hmem p), fun p => ?_⟩
        rw [hlines, Files.append, Files.lines_write_self]
        split
        · rfl
        · next h => exact Files.lines_write_of_ne h
    · exact ih hgroup

/-! ## The whole step -/

variable {F : Files} {node : Id}

theorem names_processRuntime (hroot : rootId ∈ F.names) (hnew : node.groupxx ∉ F.names) (p : Id) :
    p ∈ (processRuntime collate F node).names ↔ p = node.groupxx ∨ p ∈ F.names := by
  have hgroup : node.groupxx ∈ (makeGroup collate F node).names :=
    (names_makeGroup collate hroot).mpr (Or.inl rfl)
  rw [processRuntime, if_neg hnew, names_foldl_edit, (foldl_moveAfter node _ hgroup).1,
    names_makeGroup collate hroot]

/-- **What the step does**, when the name of the group is free: the parents are
moved, root gets the group if nothing was moved to it, the group gathers the after
dependencies, and the node loses the lines of their names. -/
theorem lines_processRuntime (hroot : rootId ∈ F.names) (hnew : node.groupxx ∉ F.names)
    (hnode : node ≠ rootId) (p : Id) :
    (processRuntime collate F node).lines p =
      if p = node.groupxx then gather [required node] (movedLines F node node)
      else if p = node then
        (movedLines F node node).filter fun e => decide (e.id ∉ F.idsWith .a node)
      else if p = rootId then movedLines F node p ++ rootLine collate F node
      else movedLines F node p := by
  have hgroup : node.groupxx ∈ (makeGroup collate F node).names :=
    (names_makeGroup collate hroot).mpr (Or.inl rfl)
  have hown : (makeGroup collate F node).lines node = movedLines F node node := by
    rw [lines_makeGroup, if_neg (Ne.symm node.groupxx_ne), if_neg hnode]
  have hids : (makeGroup collate F node).idsWith .a node = F.idsWith .a node := by
    rw [Files.idsWith, hown, movedLines]
    split
    · rfl
    · next h =>
      rw [Bool.not_eq_true] at h
      exact idsWith_toGroup fun hmem =>
        not_leadsBack_iff.mp h node hmem Relation.ReflTransGen.refl
  rw [processRuntime, if_neg hnew, hids, lines_foldl_deleteId, hown,
    (foldl_moveAfter node _ hgroup).2 p, (foldl_moveAfter node _ hgroup).2 node,
    if_neg (Ne.symm node.groupxx_ne), hown, lines_makeGroup, lines_makeGroup, if_pos rfl]
  by_cases hg : p = node.groupxx
  · rw [if_pos hg, if_pos hg, if_neg (hg ▸ node.groupxx_ne)]
  · rw [if_neg hg, if_neg hg, if_neg hg]

end Step

end Jhalfs
