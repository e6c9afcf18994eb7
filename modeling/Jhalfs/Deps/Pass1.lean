import Jhalfs.Deps.Runtime

/-!
# The loop over the first dependencies

The third loop of `clean_subgraph` edits the files of the nodes that have `f`
lines and the copies `<target>-pass1` (BLFS/libs/func_dependencies:307–334). As
long as no node is named like a copy of another, the edit of a node does not depend
on the other steps: its lines become `fixFirst` of what they were
(`FirstInv.finished`). The copies lose the lines that lead back to the node, and
later steps do not open another way back by required edges: such a way would lead
from a later copy back to its own node (`FirstInv.notBack_step`).

- `fixFirst` are the lines of a node after its step: an `f` line has become the line
  `1 b` of the copy, and the other lines of its name have the name of the copy too.
- `copied` are the files with the copy, which is made once, and `leadingBack` the
  names in it that lead back to the node by edges no weaker than their line.
- `makePass1_spec` and `lines_makePass1` say what one line of the node does, and
  `foldl_makePass1` and `foldl_makePass1_notBack` what the loop over its lines does.
- `FirstInv` is the invariant of the loop, with the nodes that are left; it says of a
  finished node what its lines are, that its copies have files, and that they do not
  lead back.
-/

namespace Jhalfs

/-- The names on the `f` lines. -/
def firstIds (es : List Entry) : List Id := idsOf (es.filter fun e => e.build == .f)

/-- The lines of a node after its step: for each name on an `f` line, the lines of the name get
the suffix of the copy, and the first ones become required before lines. -/
def fixFirst (es : List Entry) : List Entry :=
  (firstIds es).foldl (fun es id => toPass1 id es) es

theorem mem_firstIds {es : List Entry} {n : Id} :
    n ∈ firstIds es ↔ ∃ e ∈ es, e.build = .f ∧ e.id = n := mem_idsOf_filter_build

theorem mem_foldl_toPass1_of_notMem {e : Entry} {ids : List Id} (hid : e.id ∉ ids)
    {es : List Entry} (he : e ∈ es) : e ∈ ids.foldl (fun es id => toPass1 id es) es := by
  induction ids generalizing es with
  | nil => exact he
  | cons id ids ih =>
    rw [List.mem_cons, not_or] at hid
    exact ih hid.2 (List.mem_map.mpr ⟨e, he, if_neg hid.1⟩)

theorem required_mem_foldl_toPass1 {e : Entry} {ids : List Id} (hid : e.id ∈ ids)
    (hcopy : e.id.pass1 ∉ ids) (hbuild : e.build = .f) {es : List Entry} (he : e ∈ es) :
    required e.id.pass1 ∈ ids.foldl (fun es id => toPass1 id es) es := by
  induction ids generalizing es with
  | nil => exact absurd hid List.not_mem_nil
  | cons id ids ih =>
    rw [List.mem_cons, not_or] at hcopy
    by_cases heq : e.id = id
    · have hmem : required e.id.pass1 ∈ toPass1 id es := by
        refine List.mem_map.mpr ⟨e, he, ?_⟩
        rw [if_pos heq, if_pos hbuild, heq]
        rfl
      exact mem_foldl_toPass1_of_notMem (e := required e.id.pass1) hcopy.2 hmem
    · exact ih ((List.mem_cons.mp hid).resolve_left heq) hcopy.2
        (List.mem_map.mpr ⟨e, he, if_neg heq⟩)

/-- An `f` line becomes a required line of the copy. -/
theorem required_mem_fixFirst {es : List Entry} {e : Entry} (he : e ∈ es) (hbuild : e.build = .f)
    (hcopy : e.id.pass1 ∉ idsOf es) : required e.id.pass1 ∈ fixFirst es := by
  refine required_mem_foldl_toPass1 (mem_firstIds.mpr ⟨e, he, hbuild, rfl⟩) (fun hmem => ?_)
    hbuild he
  obtain ⟨d, hd, -, hid⟩ := mem_firstIds.mp hmem
  exact hcopy (mem_idsOf.mpr ⟨d, hd, hid⟩)

theorem fixFirst_eq_self {es : List Entry} (h : ∀ e ∈ es, e.build ≠ .f) : fixFirst es = es := by
  have hnone : firstIds es = [] := by
    rw [firstIds, List.filter_eq_nil_iff.mpr]
    · rfl
    · intro e he
      rw [beq_iff_eq]
      exact h e he
  rw [fixFirst, hnone, List.foldl_nil]

/-- A line after the step: one that was there, or one of a copy. -/
theorem cases_of_mem_foldl_toPass1 {d : Entry} {ids : List Id} {es : List Entry}
    (hd : d ∈ ids.foldl (fun es id => toPass1 id es) es) :
    d ∈ es ∨ ∃ id ∈ ids, d.id = id.pass1 := by
  induction ids generalizing es with
  | nil => exact Or.inl hd
  | cons id ids ih =>
    rcases ih hd with hd | ⟨id', hid', hd⟩
    · obtain ⟨e, he, rfl⟩ := List.mem_map.mp hd
      by_cases heq : e.id = id
      · refine Or.inr ⟨id, List.mem_cons_self, ?_⟩
        rw [if_pos heq]
        split
        · rfl
        · rfl
      · rw [if_neg heq]
        exact Or.inl he
    · exact Or.inr ⟨id', List.mem_cons_of_mem _ hid', hd⟩

theorem cases_of_mem_fixFirst {d : Entry} {es : List Entry} (hd : d ∈ fixFirst es) :
    d ∈ es ∨ d.id ∈ (firstIds es).map Id.pass1 := by
  refine (cases_of_mem_foldl_toPass1 hd).imp_right ?_
  rintro ⟨id, hid, heq⟩
  exact List.mem_map.mpr ⟨id, hid, heq.symm⟩

/-! ## The copies -/

/-- One line of the node. -/
theorem makePass1_spec (node : Id) (F : Files) (e : Entry) :
    (∀ n ∈ F.names, n ∈ (makePass1 node F e).names) ∧
      (∀ p, (e.build = .f → p ≠ e.id.pass1) → (makePass1 node F e).lines p = F.lines p) ∧
      (e.build = .f → e.id ∈ F.names → e.id.pass1 ∈ (makePass1 node F e).names) := by
  rw [makePass1]
  by_cases hbuild : e.build = .f
  · rw [if_pos hbuild]
    refine ⟨fun n hn => ?_, fun p hp => ?_, fun _ hid => ?_⟩
    · rw [names_foldl_edit]
      split
      · exact hn
      · exact Files.mem_names_write.mpr (Or.inr hn)
    · rw [lines_foldl_deleteId, if_neg (hp hbuild)]
      split
      · rfl
      · exact Files.lines_write_of_ne (hp hbuild)
    · rw [names_foldl_edit]
      split
      · next h => exact h.resolve_right fun hnot => hnot hid
      · exact Files.mem_names_write.mpr (Or.inl rfl)
  · rw [if_neg hbuild]
    exact ⟨fun _ hn => hn, fun _ _ => rfl, fun h => absurd h hbuild⟩

/-- The loop over the lines of the node. -/
theorem foldl_makePass1 (node : Id) (es : List Entry) (F : Files) :
    (∀ n ∈ F.names, n ∈ (es.foldl (makePass1 node) F).names) ∧
      (∀ p, (∀ e ∈ es, e.build = .f → p ≠ e.id.pass1) →
        (es.foldl (makePass1 node) F).lines p = F.lines p) ∧
      (∀ e ∈ es, e.build = .f → e.id ∈ F.names →
        e.id.pass1 ∈ (es.foldl (makePass1 node) F).names) := by
  induction es generalizing F with
  | nil => exact ⟨fun _ hn => hn, fun _ _ => rfl, fun e he => absurd he List.not_mem_nil⟩
  | cons d es ih =>
    obtain ⟨hnames, hlines, hcopy⟩ := makePass1_spec node F d
    obtain ⟨hnames', hlines', hcopy'⟩ := ih (makePass1 node F d)
    rw [List.foldl_cons]
    refine ⟨fun n hn => hnames' n (hnames n hn), fun p hp => ?_, fun e he hbuild hid => ?_⟩
    · rw [hlines' p fun e he => hp e (List.mem_cons_of_mem _ he),
        hlines p (hp d List.mem_cons_self)]
    · rcases List.mem_cons.mp he with rfl | he
      · exact hnames' _ (hcopy hbuild hid)
      · exact hcopy' e he hbuild (hnames _ hid)

/-! ## What a copy does not lead back to -/

/-- The files with the copy of `id`, which is made once: where it is there already, the second
node that lists `id` as first uses the same one. -/
def copied (F : Files) (id : Id) : Files :=
  if id.pass1 ∈ F.names ∨ id ∉ F.names then F else F.write id.pass1 (F.lines id)

theorem lines_copied {F : Files} {id p : Id} {d : Entry} (hd : d ∈ (copied F id).lines p) :
    d ∈ F.lines p ∨ (p ∉ F.names ∧ d ∈ F.lines id) := by
  rw [copied] at hd
  split at hd
  · exact Or.inl hd
  · next h =>
    rw [not_or] at h
    by_cases hp : p = id.pass1
    · rw [hp, Files.lines_write_self] at hd
      exact Or.inr ⟨hp ▸ h.1, hd⟩
    · rw [Files.lines_write_of_ne hp] at hd
      exact Or.inl hd

/-- The lines of a copy that lead back to the node. -/
def leadingBack (F : Files) (node id : Id) : List Id :=
  idsOf ((F.lines id.pass1).filter fun d => pathTo F d.id node d.prio.val)

theorem lines_makePass1 {node : Id} {F : Files} {e : Entry} (hbuild : e.build = .f) (p : Id) :
    (makePass1 node F e).lines p =
      if p = e.id.pass1 then
        ((copied F e.id).lines e.id.pass1).filter fun d =>
          decide (d.id ∉ leadingBack (copied F e.id) node e.id)
      else (copied F e.id).lines p := by
  rw [makePass1, if_pos hbuild]
  exact lines_foldl_deleteId _ _ _ _

theorem mem_copied_of_mem_makePass1 {node : Id} {F : Files} {e : Entry} (hbuild : e.build = .f)
    {p : Id} {d : Entry} (hd : d ∈ (makePass1 node F e).lines p) :
    d ∈ (copied F e.id).lines p := by
  rw [lines_makePass1 hbuild] at hd
  split at hd
  · next hp => exact hp ▸ (List.mem_filter.mp hd).1
  · exact hd

/-- A line after the step was in the file, or the file is new and copies it. -/
theorem cases_of_mem_makePass1 {node : Id} {F : Files} {e : Entry} {p : Id} {d : Entry}
    (hd : d ∈ (makePass1 node F e).lines p) :
    d ∈ F.lines p ∨ (p ∉ F.names ∧ d ∈ F.lines e.id) := by
  by_cases hbuild : e.build = .f
  · exact lines_copied (mem_copied_of_mem_makePass1 hbuild hd)
  · rw [makePass1, if_neg hbuild] at hd
    exact Or.inl hd

/-- No line of the copy leads back to the node by edges that are no weaker. -/
theorem not_path_makePass1 {node : Id} {F : Files} {e : Entry} (hbuild : e.build = .f) {d : Entry}
    (hd : d ∈ (makePass1 node F e).lines e.id.pass1) :
    ¬ Path (makePass1 node F e).lines d.prio.val d.id node := by
  intro hpath
  rw [lines_makePass1 hbuild, if_pos rfl, List.mem_filter, decide_eq_true_iff] at hd
  refine hd.2 (mem_idsOf.mpr ⟨d, List.mem_filter.mpr ⟨hd.1, pathTo_iff.mpr ?_⟩, rfl⟩)
  exact hpath.to_end fun n _ x hx => mem_copied_of_mem_makePass1 hbuild hx

/-- The loop over the lines of the node: the files that were there lose lines only,
and the copies do not lead back. `nodes` holds all names on the lines. -/
theorem foldl_makePass1_notBack (node : Id) (es : List Entry) (nodes : List Id) (F : Files)
    (hnodes : ∀ n ∈ nodes, n ∈ F.names) (hids : ∀ p, ∀ d ∈ F.lines p, d.id ∈ nodes) :
    (∀ p, ∀ d ∈ (es.foldl (makePass1 node) F).lines p, d.id ∈ nodes) ∧
      (∀ p ∈ F.names, ∀ d ∈ (es.foldl (makePass1 node) F).lines p, d ∈ F.lines p) ∧
      (∀ e ∈ es, e.build = .f → e.id ∈ F.names →
        ∀ d ∈ (es.foldl (makePass1 node) F).lines e.id.pass1,
          ¬ Path (es.foldl (makePass1 node) F).lines d.prio.val d.id node) := by
  induction es generalizing F with
  | nil => exact ⟨hids, fun _ _ _ hd => hd, fun e he => absurd he List.not_mem_nil⟩
  | cons c es ih =>
    obtain ⟨hnames, -, hcopy⟩ := makePass1_spec node F c
    have hnodes' : ∀ n ∈ nodes, n ∈ (makePass1 node F c).names := fun n hn =>
      hnames n (hnodes n hn)
    have hids' : ∀ p, ∀ d ∈ (makePass1 node F c).lines p, d.id ∈ nodes := by
      intro p d hd
      rcases cases_of_mem_makePass1 hd with hd | ⟨-, hd⟩
      · exact hids p d hd
      · exact hids _ d hd
    obtain ⟨hidsEnd, hsub, hback⟩ := ih (makePass1 node F c) hnodes' hids'
    rw [List.foldl_cons]
    refine ⟨hidsEnd, fun p hp d hd => ?_, fun e he hbuild hid d hd hpath => ?_⟩
    · rcases cases_of_mem_makePass1 (hsub p (hnames p hp) d hd) with hd | ⟨hp', -⟩
      · exact hd
      · exact absurd hp hp'
    · rcases List.mem_cons.mp he with rfl | he
      · -- a path from the copy stays on names that were there, whose files only shrink
        refine not_path_makePass1 hbuild (hsub _ (hcopy hbuild hid) d hd) ?_
        exact hpath.of_closed (fun n hn x hx => ⟨hsub n (hnodes' n hn) x hx, hidsEnd n x hx⟩)
          (hidsEnd _ d hd)
      · exact hback e he hbuild (hnames _ hid) d hd hpath

/-! ## The loop -/

/-- No node is named like the copy of a node. -/
def Files.copiesFree (F : Files) : Bool := F.names.all fun n => !F.names.contains n.pass1

theorem Files.pass1_notMem {F : Files} (h : F.copiesFree = true) {n : Id} (hn : n ∈ F.names) :
    n.pass1 ∉ F.names := by
  have := List.all_eq_true.mp h n hn
  simpa using this

/-- What holds before each step of the loop over `B`, with the nodes `rest` left. The
copies made for a node that is finished lead back to it by no required edges. -/
structure FirstInv (B : Files) (rest : List Id) (F : Files) : Prop where
  nodup : rest.Nodup
  rest_old : ∀ p ∈ rest, p ∈ B.names
  names : ∀ n ∈ B.names, n ∈ F.names
  targets : ∀ p, ∀ e ∈ F.lines p, e.id ∈ F.names
  todo : ∀ p ∈ B.names, p ∈ rest → F.lines p = B.lines p
  finished : ∀ p ∈ B.names, p ∉ rest → F.lines p = fixFirst (B.lines p)
  copies : ∀ p ∈ B.names, p ∉ rest → ∀ e ∈ B.lines p, e.build = .f → e.id.pass1 ∈ F.names
  notBack : ∀ p ∈ B.names, p ∉ rest → ∀ e ∈ B.lines p, e.build = .f →
    ¬ Path F.lines 1 e.id.pass1 p

section Step

variable {B F : Files} {node : Id} {rest : List Id} (h : FirstInv B (node :: rest) F)
  (hfree : B.copiesFree = true) (htargets : ∀ p, ∀ e ∈ B.lines p, e.id ∈ B.names)

include h

theorem FirstInv.node_old : node ∈ B.names := h.rest_old node List.mem_cons_self

theorem FirstInv.lines_node : F.lines node = B.lines node :=
  h.todo node h.node_old List.mem_cons_self

include hfree htargets

/-- The copies have new names, so the loop over the lines leaves the nodes alone. -/
theorem FirstInv.lines_foldl {p : Id} (hp : p ∈ B.names) :
    ((F.lines node).foldl (makePass1 node) F).lines p = F.lines p := by
  obtain ⟨-, hlines, -⟩ := foldl_makePass1 node (F.lines node) F
  refine hlines p fun e he _ heq => ?_
  rw [h.lines_node] at he
  exact Files.pass1_notMem hfree (htargets node e he) (heq ▸ hp)

theorem FirstInv.lines_processFirst (p : Id) : (processFirst F node).lines p =
    if p = node then fixFirst (B.lines node)
    else ((F.lines node).foldl (makePass1 node) F).lines p := by
  rw [processFirst, lines_foldl_edit (fun _ => rfl), h.lines_foldl hfree htargets h.node_old,
    ← h.lines_node]
  rfl

/-- The copies made for the node do not lead back to it. -/
theorem FirstInv.notBack_node {e : Entry} (he : e ∈ B.lines node) (hbuild : e.build = .f) :
    ¬ Path (processFirst F node).lines 1 e.id.pass1 node := by
  intro hpath
  have hid := htargets node e he
  have hloop : Path ((F.lines node).foldl (makePass1 node) F).lines 1 e.id.pass1 node := by
    refine hpath.to_end fun n hn x hx => ?_
    rwa [h.lines_processFirst hfree htargets, if_neg hn] at hx
  rcases Relation.ReflTransGen.cases_head hloop with heq | ⟨m, ⟨d, hd, -, rfl⟩, hrest⟩
  · exact Files.pass1_notMem hfree hid (heq ▸ h.node_old)
  · obtain ⟨-, -, hback⟩ :=
      foldl_makePass1_notBack node (F.lines node) F.names F (fun _ hn => hn) h.targets
    have hrest' : Path ((F.lines node).foldl (makePass1 node) F).lines d.prio.val d.id node :=
      Path.mono d.prio.pos hrest
    exact hback e (h.lines_node ▸ he) hbuild (h.names _ hid) d hd hrest'

theorem FirstInv.finished_step {p : Id} (hp : p ∈ B.names) (hrest : p ∉ rest) :
    (processFirst F node).lines p = fixFirst (B.lines p) := by
  rw [h.lines_processFirst hfree htargets]
  by_cases heq : p = node
  · rw [if_pos heq, heq]
  · rw [if_neg heq, h.lines_foldl hfree htargets hp]
    exact h.finished p hp fun hmem => (List.mem_cons.mp hmem).elim heq hrest

/-- A path that the step makes goes through the node, and on to the copy: for another
finished node it would lead from the copy back to the node. -/
theorem FirstInv.notBack_step {p : Id} (hp : p ∈ B.names) (hrest : p ∉ rest) {e : Entry}
    (he : e ∈ B.lines p) (hbuild : e.build = .f) :
    ¬ Path (processFirst F node).lines 1 e.id.pass1 p := by
  by_cases heq : p = node
  · subst heq
    exact h.notBack_node hfree htargets he hbuild
  · intro hpath
    have hnotIn : p ∉ node :: rest := fun hmem => (List.mem_cons.mp hmem).elim heq hrest
    obtain ⟨hids, hsub, -⟩ :=
      foldl_makePass1_notBack node (F.lines node) F.names F (fun _ hn => hn) h.targets
    have hcases : Path ((F.lines node).foldl (makePass1 node) F).lines 1 e.id.pass1 p ∨
        ∃ z ∈ (firstIds (B.lines node)).map Id.pass1,
          Path (processFirst F node).lines 1 e.id.pass1 node ∧
            Path (processFirst F node).lines 1 z p := by
      refine hpath.cases_new fun n x hx => ?_
      rw [h.lines_processFirst hfree htargets] at hx
      split at hx
      · next hn =>
        subst hn
        refine (cases_of_mem_fixFirst hx).imp (fun hx => ?_) fun hnew => ⟨rfl, hnew⟩
        rwa [h.lines_foldl hfree htargets h.node_old, h.lines_node]
      · exact Or.inl hx
    rcases hcases with hold | ⟨z, hz, hto, hfrom⟩
    · refine h.notBack p hp hnotIn e he hbuild ?_
      exact hold.of_closed (fun n hn x hx => ⟨hsub n hn x hx, hids n x hx⟩)
        (h.copies p hp hnotIn e he hbuild)
    · obtain ⟨id, hid, rfl⟩ := List.mem_map.mp hz
      obtain ⟨c, hc, hcbuild, rfl⟩ := mem_firstIds.mp hid
      refine h.notBack_node hfree htargets hc hcbuild ((hfrom.tail ?_).trans hto)
      refine ⟨required e.id.pass1, ?_, Nat.le_refl 1, rfl⟩
      rw [h.finished_step hfree htargets hp hrest]
      refine required_mem_fixFirst he hbuild fun hmem => ?_
      obtain ⟨x, hx, hxid⟩ := mem_idsOf.mp hmem
      exact Files.pass1_notMem hfree (htargets p e he) (hxid ▸ htargets p x hx)

theorem FirstInv.step : FirstInv B rest (processFirst F node) := by
  obtain ⟨hnames, -, hcopy⟩ := foldl_makePass1 node (F.lines node) F
  obtain ⟨hids, -, -⟩ :=
    foldl_makePass1_notBack node (F.lines node) F.names F (fun _ hn => hn) h.targets
  have hnames' : ∀ {n}, n ∈ (processFirst F node).names ↔
      n ∈ ((F.lines node).foldl (makePass1 node) F).names := by
    rw [processFirst, names_foldl_edit]
  have hcopies : ∀ e ∈ B.lines node, e.build = .f →
      e.id.pass1 ∈ (processFirst F node).names := fun e he hbuild =>
    hnames'.mpr (hcopy e (h.lines_node ▸ he) hbuild (h.names _ (htargets node e he)))
  exact
    { nodup := (List.nodup_cons.mp h.nodup).2
      rest_old := fun p hp => h.rest_old p (List.mem_cons_of_mem _ hp)
      names := fun n hn => hnames'.mpr (hnames n (h.names n hn))
      targets := fun p e he => by
        rw [h.lines_processFirst hfree htargets] at he
        split at he
        · rcases cases_of_mem_fixFirst he with he | hnew
          · exact hnames'.mpr (hnames _ (h.names _ (htargets node e he)))
          · obtain ⟨id, hid, heq⟩ := List.mem_map.mp hnew
            obtain ⟨c, hc, hbuild, rfl⟩ := mem_firstIds.mp hid
            exact heq ▸ hcopies c hc hbuild
        · exact hnames'.mpr (hnames _ (hids p e he))
      todo := fun p hp hrest => by
        have hne : p ≠ node := fun heq => (List.nodup_cons.mp h.nodup).1 (heq ▸ hrest)
        rw [h.lines_processFirst hfree htargets, if_neg hne, h.lines_foldl hfree htargets hp]
        exact h.todo p hp (List.mem_cons_of_mem _ hrest)
      finished := fun p hp hrest => h.finished_step hfree htargets hp hrest
      copies := fun p hp hrest e he hbuild => by
        by_cases heq : p = node
        · exact hcopies e (heq ▸ he) hbuild
        · exact hnames'.mpr (hnames _ (h.copies p hp
            (fun hmem => (List.mem_cons.mp hmem).elim heq hrest) e he hbuild))
      notBack := fun p hp hrest e he hbuild => h.notBack_step hfree htargets hp hrest he hbuild }

end Step

theorem firstInv_firstLoop (collate : Id → Id → Bool) {B : Files} (hfree : B.copiesFree = true)
    (htargets : ∀ p, ∀ e ∈ B.lines p, e.id ∈ B.names) : FirstInv B [] (firstLoop collate B) := by
  have hstart : FirstInv B (B.nodesWith collate .f) B :=
    { nodup := Files.nodup_nodesWith _ _ _
      rest_old := fun p hp => by
        obtain ⟨e, he, -⟩ := Files.mem_nodesWith.mp hp
        exact Files.mem_names_of_mem_lines he
      names := fun _ hn => hn
      targets := htargets
      todo := fun _ _ _ => rfl
      finished := fun p _ hnot => (fixFirst_eq_self fun e he hbuild =>
        hnot (Files.mem_nodesWith.mpr ⟨e, he, hbuild⟩)).symm
      copies := fun p _ hnot e he hbuild =>
        absurd (Files.mem_nodesWith.mpr ⟨e, he, hbuild⟩) hnot
      notBack := fun p _ hnot e he hbuild =>
        absurd (Files.mem_nodesWith.mpr ⟨e, he, hbuild⟩) hnot }
  exact Loop.foldl_invariant (I := fun rest F => FirstInv B rest F)
    (fun _ _ _ hinv => hinv.step hfree htargets) hstart

end Jhalfs
