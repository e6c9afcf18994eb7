import Jhalfs.Deps.Groups
import Jhalfs.Deps.Pass1

/-!
# What the second pass leaves for the third

The third pass takes each line to be a before line of a node with a file, and prunes or
deletes what is not. Whatever the names are, `clean_subgraph` leaves no line without a file
and no after line (`NoAfter`), and the loop over the first dependencies changes the first
lines of every node it has listed (`FirstState`).

It lists the nodes once, before it copies files. A file that is copied while it has first
lines of its own leaves them in the copy, which is on no list. They go away only if a search
finds that they lead back, at the node that made the copy or at a later one
(`copiesClean`).

- `Visit` is a line that the third loop reads, with the files at that moment, and `visits`
  are all of them in order. `Visit.copies` and `Visit.drops` say what happens there, with the
  code's own `path_to`.
- `StillClean` is the balance: the first lines that are left in the copies now are deleted
  at one of the lines that are still to be read, and so are those of the copies that are
  made there. It is the same before and after a line (`stillClean_step`), so it can be read
  off the beginning of the loop (`stillClean_foldl`).
- `deliversBefore_iff`: **the second pass leaves before lines only**, exactly when no copy
  keeps a first line.
-/

namespace Jhalfs

/-! ## No after lines -/

/-- What holds before each step of the runtime loop, with the nodes `rest` left: every line
names a file, and only the nodes that are left have after lines. It holds whatever the
names are. -/
structure NoAfter (rest : List Id) (F : Files) : Prop where
  root : rootId ∈ F.names
  rest_names : ∀ n ∈ rest, n ∈ F.names
  targets : ∀ p, ∀ e ∈ F.lines p, e.id ∈ F.names
  after : ∀ p, p ∉ rest → ∀ e ∈ F.lines p, e.build ≠ .a

section Runtime

variable {collate : Id → Id → Bool} {F : Files} {node : Id} {rest : List Id}

/-- The files before the after dependencies are moved. -/
def grouped (collate : Id → Id → Bool) (F : Files) (node : Id) : Files :=
  if node.groupxx ∈ F.names then F else makeGroup collate F node

theorem mem_names_grouped (hroot : rootId ∈ F.names) {p : Id} :
    p ∈ (grouped collate F node).names ↔ p = node.groupxx ∨ p ∈ F.names := by
  unfold grouped
  split
  · next h =>
    constructor
    · exact Or.inr
    · rintro (rfl | hp)
      · exact h
      · exact hp
  · exact names_makeGroup collate hroot

/-- A line of the files with the group: one of the file, which may have the name of the
group now, or a line `1 b` that the group or root gets. -/
theorem cases_of_mem_grouped {p : Id} {d : Entry}
    (hd : d ∈ (grouped collate F node).lines p) :
    (∃ e ∈ F.lines p, d.build = e.build ∧ (d.id = e.id ∨ d.id = node.groupxx)) ∨
      (d.build = .b ∧ (d.id = node ∨ d.id = node.groupxx)) := by
  have hmoved : ∀ {d : Entry}, d ∈ movedLines F node p →
      ∃ e ∈ F.lines p, d.build = e.build ∧ (d.id = e.id ∨ d.id = node.groupxx) := by
    intro d hd
    obtain ⟨e, he, hbuild, -, hid⟩ := exists_of_mem_moved hd
    exact ⟨e, he, hbuild, hid.imp And.left fun h => h.2.2⟩
  unfold grouped at hd
  split at hd
  · exact Or.inl ⟨d, hd, rfl, Or.inl rfl⟩
  · rw [lines_makeGroup] at hd
    split at hd
    · rw [List.mem_singleton.mp hd]
      exact Or.inr ⟨rfl, Or.inl rfl⟩
    · split at hd
      · rcases List.mem_append.mp hd with hd | hd
        · exact Or.inl (hmoved hd)
        · rw [rootLine] at hd
          split at hd
          · cases hd
          · rw [List.mem_singleton.mp hd]
            exact Or.inr ⟨rfl, Or.inr rfl⟩
      · exact Or.inl (hmoved hd)

/-- The lines after the step, whether or not the name of the group was free. -/
theorem lines_processRuntime_grouped (hroot : rootId ∈ F.names) (p : Id) :
    (∀ q, q ∈ (processRuntime collate F node).names ↔ q ∈ (grouped collate F node).names) ∧
    (processRuntime collate F node).lines p =
      if p = node then
        ((grouped collate F node).lines node).filter fun e =>
          decide (e.id ∉ (grouped collate F node).idsWith .a node)
      else if p = node.groupxx then
        gather ((grouped collate F node).lines node.groupxx) ((grouped collate F node).lines node)
      else (grouped collate F node).lines p := by
  have hgroup : node.groupxx ∈ (grouped collate F node).names :=
    (mem_names_grouped hroot).mpr (Or.inl rfl)
  obtain ⟨hnames, hlines⟩ :=
    foldl_moveAfter node ((grouped collate F node).lines node) hgroup
  have hstep : processRuntime collate F node =
      ((grouped collate F node).idsWith .a node).foldl (fun F id => F.edit node (deleteId id))
        (((grouped collate F node).lines node).foldl (moveAfter node) (grouped collate F node)) :=
    rfl
  constructor
  · intro q
    rw [hstep, names_foldl_edit, hnames]
  · rw [hstep, lines_foldl_deleteId, hlines, if_neg (Ne.symm node.groupxx_ne), hlines]

theorem NoAfter.step (h : NoAfter (node :: rest) F) :
    NoAfter rest (processRuntime collate F node) := by
  have hnames : ∀ q, q ∈ (processRuntime collate F node).names ↔
      q = node.groupxx ∨ q ∈ F.names := fun q =>
    ((lines_processRuntime_grouped h.root q).1 q).trans (mem_names_grouped h.root)
  -- a line that is rewritten keeps its letter, and leads to where it led or to the group
  have hgrouped : ∀ p, ∀ d ∈ (grouped collate F node).lines p,
      (d.id = node.groupxx ∨ d.id ∈ F.names) ∧ (d.build = .a → p = node ∨ p ∈ rest) := by
    intro p d hd
    rcases cases_of_mem_grouped hd with ⟨e, he, hbuild, hid⟩ | ⟨hbuild, hid⟩
    · constructor
      · rcases hid with hid | hid
        · exact Or.inr (hid ▸ h.targets p e he)
        · exact Or.inl hid
      · intro hafter
        by_contra hnot
        rw [← List.mem_cons] at hnot
        exact h.after p hnot e he (hbuild.symm.trans hafter)
    · constructor
      · rcases hid with hid | hid
        · exact Or.inr (hid ▸ h.rest_names node List.mem_cons_self)
        · exact Or.inl hid
      · intro hafter
        rw [hbuild] at hafter
        cases hafter
  refine ⟨(hnames _).mpr (Or.inr h.root), fun n hn => ?_, fun p d hd => ?_, fun p hp d hd => ?_⟩
  · exact (hnames n).mpr (Or.inr (h.rest_names n (List.mem_cons_of_mem _ hn)))
  · rw [hnames]
    rw [(lines_processRuntime_grouped h.root p).2] at hd
    split at hd
    · exact (hgrouped node d (List.mem_filter.mp hd).1).1
    · split at hd
      · rcases of_mem_gather hd with hd | ⟨e, he, -, rfl⟩
        · exact (hgrouped _ d hd).1
        · exact (hgrouped node e he).1
      · exact (hgrouped p d hd).1
  · rw [(lines_processRuntime_grouped h.root p).2] at hd
    split at hd
    · -- an after line of the node has a name that is deleted
      intro hafter
      obtain ⟨hd, hid⟩ := List.mem_filter.mp hd
      exact of_decide_eq_true hid (Files.mem_idsWith.mpr ⟨d, hd, hafter, rfl⟩)
    · next hnode =>
      split at hd
      · rcases of_mem_gather hd with hd | ⟨e, -, -, rfl⟩
        · exact fun hafter => ((hgrouped _ d hd).2 hafter).elim (fun h' => node.groupxx_ne h')
            fun h' => hp (by subst_vars; exact h')
        · exact fun hafter => by cases hafter
      · exact fun hafter => ((hgrouped p d hd).2 hafter).elim hnode hp

end Runtime

/-! ## The loop over the first dependencies, line by line -/

/-- A line that the loop reads: the files at that moment, the node and the line. From these it
is seen whether a copy is made there and which lines of a copy are deleted. -/
structure Visit where
  files : Files
  node : Id
  line : Entry

/-- The lines that the loop reads for one node. -/
def visitsOf (node : Id) : List Entry → Files → List Visit
  | [], _ => []
  | e :: es, F => ⟨F, node, e⟩ :: visitsOf node es (makePass1 node F e)

/-- The lines that the loop reads. -/
def visits : List Id → Files → List Visit
  | [], _ => []
  | node :: nodes, F => visitsOf node (F.lines node) F ++ visits nodes (processFirst F node)

namespace Visit

/-- A file is copied (func_dependencies:315–316). -/
def copies (v : Visit) : Bool := v.line.build == .f && !v.files.names.contains v.line.id.pass1

/-- A line of the copy of `x` is deleted, since a line with its name leads back
(func_dependencies:319–328). -/
def drops (v : Visit) (x : Id) (d : Entry) : Bool :=
  v.line.build == .f && v.line.id == x &&
    ((copied v.files x).lines x.pass1).any fun c =>
      c.id == d.id && pathTo (copied v.files x) c.id v.node c.prio.val

end Visit

/-- Each first line that a file has when it is copied is deleted from the copy, then or
later. -/
def copiesClean : List Visit → Bool
  | [] => true
  | v :: vs =>
    (!v.copies || (v.files.lines v.line.id).all fun d =>
      d.build != .f || (v :: vs).any fun u => u.drops v.line.id d) && copiesClean vs

/-- The first lines that are left in the copies are deleted in `vs`, and so are those of
the copies that are made in `vs`. -/
def StillClean (old : List Id) (vs : List Visit) (F : Files) : Prop :=
  (∀ x : Id, x.pass1 ∉ old → ∀ d ∈ F.lines x.pass1, d.build = .f → ∃ u ∈ vs, u.drops x d = true) ∧
    copiesClean vs = true

section Copies

variable {F : Files} {node : Id} {e : Entry}

theorem lines_copied_pass1 (F : Files) (x : Id) : (copied F x).lines x.pass1 =
    if x.pass1 ∈ F.names then F.lines x.pass1 else F.lines x := by
  unfold copied
  by_cases hcopy : x.pass1 ∈ F.names
  · rw [if_pos (Or.inl hcopy), if_pos hcopy]
  · rw [if_neg hcopy]
    by_cases hx : x ∈ F.names
    · rw [if_neg (not_or.mpr ⟨hcopy, not_not.mpr hx⟩), Files.lines_write_self]
    · rw [if_pos (Or.inr hx), F.absent _ hcopy, F.absent x hx]

theorem Visit.drops_iff {v : Visit} {x : Id} {d : Entry} : v.drops x d = true ↔
    (v.line.build = .f ∧ v.line.id = x) ∧ d.id ∈ leadingBack (copied v.files x) v.node x := by
  unfold Visit.drops leadingBack
  rw [Bool.and_eq_true, Bool.and_eq_true, beq_iff_eq, beq_iff_eq, List.any_eq_true, mem_idsOf]
  refine and_congr_right fun _ => exists_congr fun c => ?_
  rw [List.mem_filter, Bool.and_eq_true, beq_iff_eq, and_comm (a := c.id = d.id), and_assoc]

/-- The lines of a copy behind a line of the node. -/
theorem mem_lines_makePass1 {x : Id} {d : Entry} :
    d ∈ (makePass1 node F e).lines x.pass1 ↔
      (d ∈ if e.build = .f ∧ e.id = x then (copied F x).lines x.pass1 else F.lines x.pass1) ∧
        ¬ Visit.drops ⟨F, node, e⟩ x d = true := by
  rw [Visit.drops_iff]
  by_cases hline : e.build = .f ∧ e.id = x
  · obtain ⟨hbuild, rfl⟩ := hline
    rw [lines_makePass1 hbuild, if_pos rfl, if_pos ⟨hbuild, rfl⟩, List.mem_filter,
      decide_eq_true_iff]
    simp [hbuild]
  · have hlines : (makePass1 node F e).lines x.pass1 = F.lines x.pass1 :=
      (makePass1_spec node F e).2.1 _ fun hbuild heq =>
        hline ⟨hbuild, (Id.pass1_injective heq).symm⟩
    rw [if_neg hline, hlines]
    simp [hline]

/-- **The balance of one line**: a first line that the line does not delete is left for
the lines behind it. -/
theorem stillClean_step {old : List Id} (hold : ∀ n ∈ old, n ∈ F.names) (vs : List Visit) :
    StillClean old (⟨F, node, e⟩ :: vs) F ↔ StillClean old vs (makePass1 node F e) := by
  have hlater : ∀ {x : Id} {d : Entry}, (∃ u ∈ (⟨F, node, e⟩ : Visit) :: vs, u.drops x d = true) ↔
      (Visit.drops ⟨F, node, e⟩ x d = true ∨ ∃ u ∈ vs, u.drops x d = true) := by
    intro x d
    simp only [List.mem_cons, exists_eq_or_imp]
  have hcopies : copiesClean (⟨F, node, e⟩ :: vs) = true ↔
      ((e.build = .f → e.id.pass1 ∉ F.names → ∀ d ∈ F.lines e.id, d.build = .f →
        Visit.drops ⟨F, node, e⟩ e.id d = true ∨ ∃ u ∈ vs, u.drops e.id d = true) ∧
        copiesClean vs = true) := by
    rw [copiesClean, Bool.and_eq_true]
    refine and_congr_left fun _ => ?_
    by_cases hbuild : e.build = .f
    · by_cases hcopy : e.id.pass1 ∈ F.names
      · simp [Visit.copies, hcopy]
      · simp only [Visit.copies, hbuild, beq_self_eq_true, List.contains_eq_mem, hcopy,
          decide_false, Bool.not_false, Bool.and_self, Bool.not_true, Bool.false_or,
          List.all_eq_true, Bool.or_eq_true, bne_iff_ne, not_false_eq_true, forall_const,
          List.any_eq_true]
        refine forall₂_congr fun d _ => ?_
        rw [hlater, ← imp_iff_not_or]
    · simp [Visit.copies, hbuild]
  unfold StillClean
  rw [hcopies]
  constructor
  · rintro ⟨hleft, hmade, hrest⟩
    refine ⟨fun x hx d hd hbuild => ?_, hrest⟩
    obtain ⟨hd, hdrops⟩ := mem_lines_makePass1.mp hd
    -- the lines of a new copy are those of the name it was made from
    by_cases hline : e.build = .f ∧ e.id = x
    · rw [if_pos hline, lines_copied_pass1] at hd
      obtain ⟨hbuild', rfl⟩ := hline
      split at hd
      · exact (hlater.mp (hleft _ hx d hd hbuild)).resolve_left hdrops
      · next hcopy => exact (hmade hbuild' hcopy d hd hbuild).resolve_left hdrops
    · rw [if_neg hline] at hd
      exact (hlater.mp (hleft x hx d hd hbuild)).resolve_left hdrops
  · rintro ⟨hleft, hrest⟩
    refine ⟨fun x hx d hd hbuild => ?_, fun hbuild' hcopy d hd hbuild => ?_, hrest⟩
    · rw [hlater]
      by_cases hdrops : Visit.drops ⟨F, node, e⟩ x d = true
      · exact Or.inl hdrops
      · refine Or.inr (hleft x hx d (mem_lines_makePass1.mpr ⟨?_, hdrops⟩) hbuild)
        split
        · rw [lines_copied_pass1, if_pos (Files.mem_names_of_mem_lines hd)]
          exact hd
        · exact hd
    · by_cases hdrops : Visit.drops ⟨F, node, e⟩ e.id d = true
      · exact Or.inl hdrops
      · refine Or.inr (hleft e.id (fun h => hcopy (hold _ h)) d
          (mem_lines_makePass1.mpr ⟨?_, hdrops⟩) hbuild)
        rw [if_pos ⟨hbuild', rfl⟩, lines_copied_pass1, if_neg hcopy]
        exact hd

theorem stillClean_visitsOf {old : List Id} (hold : ∀ n ∈ old, n ∈ F.names) (es : List Entry)
    (vs : List Visit) :
    StillClean old (visitsOf node es F ++ vs) F ↔
      StillClean old vs (es.foldl (makePass1 node) F) := by
  induction es generalizing F with
  | nil => rfl
  | cons e es ih =>
    rw [visitsOf, List.cons_append, stillClean_step hold, List.foldl_cons]
    exact ih fun n hn => (makePass1_spec node F e).1 n (hold n hn)

/-- The balance of a node: its own file is no copy. -/
theorem stillClean_visits {old rest : List Id} (hold : ∀ n ∈ old, n ∈ F.names)
    (hnode : node ∈ old) : StillClean old (visits (node :: rest) F) F ↔
      StillClean old (visits rest (processFirst F node)) (processFirst F node) := by
  have hlines : ∀ x : Id, x.pass1 ∉ old → (processFirst F node).lines x.pass1 =
      ((F.lines node).foldl (makePass1 node) F).lines x.pass1 := by
    intro x hx
    rw [processFirst, lines_foldl_edit (fun _ => rfl), if_neg]
    rintro rfl
    exact hx hnode
  rw [visits, stillClean_visitsOf hold]
  unfold StillClean
  refine and_congr_left fun _ => forall₂_congr fun x hx => ?_
  rw [hlines x hx]

end Copies

/-! ## The state of the loop -/

/-- What holds before each step of the loop over the first dependencies in the files `old`,
with the nodes `rest` left. -/
structure FirstState (old rest : List Id) (F : Files) : Prop where
  rest_old : ∀ n ∈ rest, n ∈ old
  names : ∀ n ∈ old, n ∈ F.names
  made : ∀ n ∈ F.names, n ∈ old ∨ ∃ x : Id, n = x.pass1
  targets : ∀ p, ∀ e ∈ F.lines p, e.id ∈ F.names
  after : ∀ p, ∀ e ∈ F.lines p, e.build ≠ .a
  first : ∀ p ∈ old, p ∉ rest → ∀ e ∈ F.lines p, e.build ≠ .f

section Step

variable {F : Files} {node : Id}

theorem build_of_mem_foldl_toPass1 {d : Entry} {ids : List Id} {es : List Entry}
    (hd : d ∈ ids.foldl (fun es id => toPass1 id es) es) :
    d.build = .b ∨ (∃ e ∈ es, d.build = e.build) ∧ (d.build = .f → d ∈ es ∧ d.id ∉ ids) := by
  induction ids generalizing es with
  | nil => exact Or.inr ⟨⟨d, hd, rfl⟩, fun _ => ⟨hd, List.not_mem_nil⟩⟩
  | cons id ids ih =>
    rcases ih hd with hb | ⟨⟨e, he, hbuild⟩, hfirst⟩
    · exact Or.inl hb
    · obtain ⟨c, hc, rfl⟩ := List.mem_map.mp he
      by_cases hid : c.id = id
      · rw [if_pos hid] at hbuild
        split at hbuild
        · exact Or.inl hbuild
        · next hnotFirst =>
          exact Or.inr ⟨⟨c, hc, hbuild⟩, fun hf => absurd (hbuild.symm.trans hf) hnotFirst⟩
      · rw [if_neg hid] at hbuild
        refine Or.inr ⟨⟨c, hc, hbuild⟩, fun hf => ?_⟩
        obtain ⟨hmem, hnot⟩ := hfirst hf
        obtain ⟨c', hc', heq⟩ := List.mem_map.mp hmem
        by_cases hid' : c'.id = id
        · rw [if_pos hid'] at heq
          split at heq
          · rw [← heq] at hf
            cases hf
          · next hnotFirst =>
            rw [← heq] at hf
            exact absurd hf hnotFirst
        · rw [if_neg hid'] at heq
          subst heq
          exact ⟨hc', fun h => (List.mem_cons.mp h).elim hid' hnot⟩

theorem mem_names_makePass1 {e : Entry} {n : Id} (hn : n ∈ (makePass1 node F e).names) :
    n ∈ F.names ∨ n = e.id.pass1 := by
  rw [makePass1] at hn
  split at hn
  · rw [names_foldl_edit] at hn
    split at hn
    · exact Or.inl hn
    · exact (Files.mem_names_write.mp hn).symm
  · exact Or.inl hn

theorem mem_names_foldl_makePass1 {es : List Entry} {n : Id}
    (hn : n ∈ (es.foldl (makePass1 node) F).names) : n ∈ F.names ∨ ∃ x : Id, n = x.pass1 := by
  induction es generalizing F with
  | nil => exact Or.inl hn
  | cons e es ih =>
    rcases ih hn with hn | hn
    · exact (mem_names_makePass1 hn).imp_right fun h => ⟨e.id, h⟩
    · exact Or.inr hn

/-- The loop over the lines of a node makes up no qualifiers. -/
theorem exists_build_of_mem_foldl_makePass1 {es : List Entry} {p : Id} {d : Entry}
    (hd : d ∈ (es.foldl (makePass1 node) F).lines p) : ∃ q, d ∈ F.lines q := by
  induction es generalizing F with
  | nil => exact ⟨p, hd⟩
  | cons e es ih =>
    obtain ⟨q, hq⟩ := ih hd
    rcases cases_of_mem_makePass1 hq with hq | ⟨-, hq⟩
    · exact ⟨q, hq⟩
    · exact ⟨e.id, hq⟩

theorem FirstState.step {old rest : List Id} (h : FirstState old (node :: rest) F) :
    FirstState old rest (processFirst F node) := by
  obtain ⟨hkept, -, hcopy⟩ := foldl_makePass1 node (F.lines node) F
  obtain ⟨hids, hsub, -⟩ :=
    foldl_makePass1_notBack node (F.lines node) F.names F (fun _ hn => hn) h.targets
  have hnames : ∀ n, n ∈ (processFirst F node).names ↔
      n ∈ ((F.lines node).foldl (makePass1 node) F).names := by
    intro n
    rw [processFirst, names_foldl_edit]
  have hlines : ∀ p, (processFirst F node).lines p =
      if p = node then (F.idsWith .f node).foldl (fun es id => toPass1 id es)
        (((F.lines node).foldl (makePass1 node) F).lines node)
      else ((F.lines node).foldl (makePass1 node) F).lines p := by
    intro p
    rw [processFirst, lines_foldl_edit fun _ => rfl]
  have hnode : node ∈ F.names := h.names node (h.rest_old node List.mem_cons_self)
  constructor
  · exact fun n hn => h.rest_old n (List.mem_cons_of_mem _ hn)
  · exact fun n hn => (hnames n).mpr (hkept n (h.names n hn))
  · intro n hn
    rcases mem_names_foldl_makePass1 ((hnames n).mp hn) with hn | hn
    · exact h.made n hn
    · exact Or.inr hn
  · intro p e he
    rw [hnames]
    rw [hlines] at he
    split at he
    · rcases cases_of_mem_foldl_toPass1 he with he | ⟨id, hid, heq⟩
      · exact hkept _ (hids _ e he)
      · obtain ⟨c, hc, hbuild, rfl⟩ := Files.mem_idsWith.mp hid
        rw [heq]
        exact hcopy c hc hbuild (h.targets node c hc)
    · exact hkept _ (hids p e he)
  · intro p e he
    rw [hlines] at he
    split at he
    · rcases build_of_mem_foldl_toPass1 he with hb | ⟨⟨c, hc, hbuild⟩, -⟩
      -- toPass1 writes a before line; any other line was there
      · rw [hb]
        decide
      · obtain ⟨q, hq⟩ := exists_build_of_mem_foldl_makePass1 hc
        rw [hbuild]
        exact h.after q c hq
    · obtain ⟨q, hq⟩ := exists_build_of_mem_foldl_makePass1 he
      exact h.after q e hq
  · intro p hp hrest e he hfirst
    rw [hlines] at he
    split at he
    · -- a first line that is left would not be on the list of names to change
      rcases build_of_mem_foldl_toPass1 he with hb | ⟨-, hleft⟩
      · rw [hb] at hfirst
        cases hfirst
      · obtain ⟨hmem, hnot⟩ := hleft hfirst
        exact hnot (Files.mem_idsWith.mpr ⟨e, hsub node hnode e hmem, hfirst, rfl⟩)
    · next hne =>
      refine h.first p hp (fun hmem => ?_) e (hsub p (h.names p hp) e he) hfirst
      exact (List.mem_cons.mp hmem).elim hne hrest

end Step

namespace Subgraph

variable (S : Subgraph) (collate : Id → Id → Bool)

/-- **After the first two loops** no line is an after line, and all have a file. -/
theorem noAfter_afterRuntime : NoAfter [] (S.afterRuntime collate) := by
  have hstart : NoAfter ((danglingLoop collate S.files).nodesWith collate .a)
      (danglingLoop collate S.files) := by
    have hinv : S.RuntimeInv ((danglingLoop collate S.files).nodesWith collate .a)
        (danglingLoop collate S.files) := S.runtimeInv_danglingLoop
    refine ⟨hinv.names _ S.root_mem, fun n hn => hinv.names n (hinv.rest_old n hn),
      hinv.targets, fun p hp e he hafter => ?_⟩
    exact hp (Files.mem_nodesWith.mpr ⟨e, he, hafter⟩)
  exact Loop.foldl_invariant (I := fun rest F => NoAfter rest F)
    (fun _ _ _ hinv => hinv.step) hstart

theorem firstState_afterRuntime : FirstState (S.afterRuntime collate).names
    ((S.afterRuntime collate).nodesWith collate .f) (S.afterRuntime collate) := by
  have hinv := S.noAfter_afterRuntime collate
  constructor
  · intro n hn
    obtain ⟨e, he, -⟩ := Files.mem_nodesWith.mp hn
    exact Files.mem_names_of_mem_lines he
  · exact fun _ hn => hn
  · exact fun _ hn => Or.inl hn
  · exact hinv.targets
  · exact fun p e he => hinv.after p List.not_mem_nil e he
  · exact fun p _ hp e he hbuild => hp (Files.mem_nodesWith.mpr ⟨e, he, hbuild⟩)

/-- The balance of the whole loop. -/
theorem stillClean_foldl {old : List Id} (nodes : List Id) {F : Files}
    (h : FirstState old nodes F) : FirstState old [] (nodes.foldl processFirst F) ∧
      (StillClean old (visits nodes F) F ↔ StillClean old [] (nodes.foldl processFirst F)) := by
  induction nodes generalizing F with
  | nil => exact ⟨h, Iff.rfl⟩
  | cons node nodes ih =>
    obtain ⟨hstate, hiff⟩ := ih h.step
    rw [List.foldl_cons]
    refine ⟨hstate, (stillClean_visits h.names (h.rest_old node List.mem_cons_self)).trans hiff⟩

/-- All lines are before lines of nodes with a file: what the third pass takes for granted of
the files that it starts from. -/
def DeliversBefore : Prop :=
  ∀ n ∈ (cleanSubgraph collate S.files).names, ∀ e ∈ (cleanSubgraph collate S.files).lines n,
    e.build = .b ∧ e.id ∈ (cleanSubgraph collate S.files).names

/-- **The second pass leaves before lines only**, exactly when no copy keeps a first line. -/
theorem deliversBefore_iff : S.DeliversBefore collate ↔
    copiesClean (visits ((S.afterRuntime collate).nodesWith collate .f)
      (S.afterRuntime collate)) = true := by
  obtain ⟨hstate, hiff⟩ := stillClean_foldl _ (S.firstState_afterRuntime collate)
  have hend : firstLoop collate (S.afterRuntime collate) = cleanSubgraph collate S.files := rfl
  rw [← firstLoop, hend] at hstate hiff
  have hstart : StillClean (S.afterRuntime collate).names
      (visits ((S.afterRuntime collate).nodesWith collate .f) (S.afterRuntime collate))
      (S.afterRuntime collate) ↔ copiesClean (visits
        ((S.afterRuntime collate).nodesWith collate .f) (S.afterRuntime collate)) = true :=
    and_iff_right fun x hx d hd _ => absurd (Files.mem_names_of_mem_lines hd) hx
  rw [← hstart, hiff]
  constructor
  · intro h
    refine ⟨fun x _ d hd hbuild => ?_, rfl⟩
    have hb := (h _ (Files.mem_names_of_mem_lines hd) d hd).1
    rw [hbuild] at hb
    cases hb
  · rintro ⟨hleft, -⟩ n hn e he
    refine ⟨?_, hstate.targets n e he⟩
    have hnotFirst : e.build ≠ .f := by
      intro hbuild
      by_cases hold : n ∈ (S.afterRuntime collate).names
      · exact hstate.first n hold List.not_mem_nil e he hbuild
      · obtain ⟨x, rfl⟩ := (hstate.made n hn).resolve_left hold
        obtain ⟨u, hu, -⟩ := hleft x hold e he hbuild
        cases hu
    cases hbuild : e.build with
    | b => rfl
    | a => exact absurd hbuild (hstate.after n e he)
    | f => exact absurd hbuild hnotFirst

end Subgraph

open Sample

/-- `w` lists `x` as first, and `x` lists `z` as first. -/
def firstChain : Subgraph :=
  .of (.ofTable [(w, [requiredFirst x]), (x, [requiredFirst z])] (by decide +kernel)) askW

/-- The copy of `x` keeps the line `1 f z`. -/
theorem firstChain_not_deliversBefore : ¬ firstChain.DeliversBefore unsorted := by
  intro h
  have hline := h x.pass1 (by decide +kernel) (requiredFirst z) (by decide +kernel)
  cases hline.1

end Jhalfs
