import Jhalfs.Deps.Order

/-!
# The files of the third pass

What the third pass relies on at each line it reads (`TreeDirectory`): every `.tree` file
begins with a link, no two have the same link, a link is one number longer than that of a
file which lists the node, and the line of weights is as long as the link. All but the last
is part of the invariant of the run (`Linked`); the last one is kept by every move, since a
frame has as many weights as numbers on its path (`aligned_of_step`).

- `TreeFile.text` is the file line by line, as `echo` and `sed` have written it: the link,
  the line of weights, and the lines of the edges.
- `linkTest_iff_mem_stack`: **the textual test on two links finds the ancestors**, the node
  that is read and the callers of its call.
- `cleanUpLines` is the clean-up as it is written, by the numbers of the lines in the text.
  A line of numbers does not have the pattern, as it has no letter (`beforeLine_numbers`), so
  neither of the first two lines is ever deleted, and the loop on the text is the loop on the
  entries (`cleanUpLines_text`).
- `generateDependencyTree_inOrder` puts these together for every state of a run, with the
  `exit 1` that is not reached.
-/

namespace Jhalfs

/-! ## The text of a `.tree` file -/

/-- A line of numbers, as `echo` and `sed` write it. -/
def numbers (l : List Nat) : List Char := [' '].intercalate (l.map Text.decimal)

/-- The link and the line of weights. -/
def TreeFile.header (f : TreeFile) : List (List Char) :=
  (if f.link = [] then [] else [numbers f.link]) ++
    if f.priolink = [] then [] else [numbers f.priolink]

/-- The lines of the file, as the shell has written them: the first one or two are numbers, the
others the lines of the `.dep` file. -/
def TreeFile.text (f : TreeFile) : List (List Char) := f.header ++ f.entries.map Entry.text

/-- The pattern `^[[:digit:]]\ b\ $line\$`. -/
def beforeLine (id : Id) : List Char → Bool
  | [] => false
  | c :: cs => c.isDigit && cs == " b ".toList ++ id.chars

/-- The number of the last line with the pattern: `sed -n /…/= | tail -n1`. -/
def lastLine (id : Id) (lines : List (List Char)) : Option Nat :=
  ((lines.zipIdx.filter fun x => beforeLine id x.1).map Prod.snd).getLast?

/-- The loop over `lines_to_remove` on the text (func_dependencies:479–482). -/
def cleanUpLines (lines : List (List Char)) : List Id → List (List Char)
  | [] => lines
  | id :: ids =>
    match lastLine id lines with
    | some lineno => cleanUpLines (lines.eraseIdx lineno) ids
    | none => cleanUpLines [] ids

/-- The pattern finds the before lines of the id. -/
theorem beforeLine_text (id : Id) (e : Entry) : beforeLine id e.text = e.isBefore id := by
  have hdigit : (Nat.digitChar e.prio.val).isDigit = true := by
    rw [Nat.isDigit_digitChar]
    exact decide_eq_true e.prio.digit
  show ((Nat.digitChar e.prio.val).isDigit &&
    (' ' :: e.build.char :: ' ' :: e.id.chars == ' ' :: 'b' :: ' ' :: id.chars)) = _
  rw [hdigit, Bool.true_and, Bool.eq_iff_iff, beq_iff_eq, Entry.isBefore_iff]
  constructor
  · intro h
    rw [List.cons_inj_right, List.cons.injEq, List.cons_inj_right] at h
    refine ⟨?_, Id.ext h.2⟩
    cases hbuild : e.build with
    | b => rfl
    | a =>
      rw [hbuild] at h
      exact absurd h.1 (by decide)
    | f =>
      rw [hbuild] at h
      exact absurd h.1 (by decide)
  · rintro ⟨hbuild, rfl⟩
    rw [hbuild]
    rfl

/-- A line of numbers does not have the pattern: it has no letter. -/
theorem beforeLine_numbers (id : Id) (l : List Nat) : beforeLine id (numbers l) = false := by
  have hchars : ∀ c ∈ numbers l, c.isDigit = true ∨ c = ' ' := by
    intro c hc
    unfold numbers at hc
    induction l with
    | nil => cases hc
    | cons n l ih =>
      cases l with
      | nil =>
        rw [List.map_cons, List.map_nil, List.intercalate_singleton] at hc
        exact Or.inl (Text.isDigit_of_mem_decimal hc)
      | cons m l =>
        rw [List.map_cons, List.map_cons, List.intercalate_cons_cons] at hc
        rcases List.mem_append.mp hc with hc | hc
        · rcases List.mem_append.mp hc with hc | hc
          · exact Or.inl (Text.isDigit_of_mem_decimal hc)
          · exact Or.inr (List.mem_singleton.mp hc)
        · exact ih hc
  cases hline : numbers l with
  | nil => rfl
  | cons c cs =>
    rw [← Bool.not_eq_true, beforeLine, Bool.and_eq_true, beq_iff_eq]
    rintro ⟨-, rfl⟩
    have hb := hchars 'b' (hline ▸ List.mem_cons_of_mem _ (List.mem_append_left _ (by decide)))
    revert hb
    decide

theorem beforeLine_header (id : Id) (f : TreeFile) :
    ∀ line ∈ f.header, beforeLine id line = false := by
  intro line hline
  have hnumbers : ∃ l, line = numbers l := by
    rcases List.mem_append.mp hline with hline | hline
    · split at hline
      · cases hline
      · exact ⟨_, List.mem_singleton.mp hline⟩
    · split at hline
      · cases hline
      · exact ⟨_, List.mem_singleton.mp hline⟩
  obtain ⟨l, rfl⟩ := hnumbers
  exact beforeLine_numbers id l

theorem lastLine_eq_none {id : Id} {lines : List (List Char)}
    (h : ∀ line ∈ lines, beforeLine id line = false) : lastLine id lines = none := by
  unfold lastLine
  rw [List.filter_eq_nil_iff.mpr]
  · rfl
  · intro x hx
    rw [h x.1 (List.fst_mem_of_mem_zipIdx hx)]
    exact Bool.false_ne_true

theorem lastLine_append {id : Id} {line : List Char} {before after : List (List Char)}
    (hline : beforeLine id line = true) (hafter : ∀ l ∈ after, beforeLine id l = false) :
    lastLine id (before ++ line :: after) = some before.length := by
  have hnone : (after.zipIdx (before.length + 1)).filter (fun x => beforeLine id x.1) = [] := by
    rw [List.filter_eq_nil_iff]
    intro x hx
    rw [hafter x.1 (List.fst_mem_of_mem_zipIdx hx)]
    exact Bool.false_ne_true
  unfold lastLine
  rw [List.zipIdx_append, List.zipIdx_cons, List.filter_append, Nat.zero_add,
    List.filter_cons_of_pos (by exact hline), hnone, List.map_append, List.map_cons, List.map_nil,
    List.getLast?_concat]

/-- **The clean-up on the text** is the clean-up on the entries: the first two lines stay
as long as each name has a line. -/
theorem cleanUpLines_text (f : TreeFile) (ids : List Id) :
    cleanUpLines f.text ids = (cleanUp f ids).text := by
  induction ids generalizing f with
  | nil => rfl
  | cons id ids ih =>
    rw [cleanUpLines, cleanUp]
    by_cases hex : ∃ e ∈ f.entries, e.isBefore id = true
    · obtain ⟨before, e, after, hsplit, he, hafter⟩ := exists_last hex
      have hafter' : ∀ x ∈ after, x.isBefore id = false := fun x hx =>
        Bool.not_eq_true _ ▸ hafter x hx
      have htext : f.text =
          (f.header ++ before.map Entry.text) ++ e.text :: after.map Entry.text := by
        rw [TreeFile.text, hsplit, List.map_append, List.map_cons, List.append_assoc]
      have hlast : lastLine id f.text = some (f.header ++ before.map Entry.text).length := by
        rw [htext]
        refine lastLine_append ((beforeLine_text id e).trans he) fun l hl => ?_
        obtain ⟨x, hx, rfl⟩ := List.mem_map.mp hl
        rw [beforeLine_text]
        exact hafter' x hx
      have herase : f.text.eraseIdx (f.header ++ before.map Entry.text).length =
          TreeFile.text { f with entries := before ++ after } := by
        rw [htext, List.eraseIdx_append_of_length_le (Nat.le_refl _), Nat.sub_self,
          List.eraseIdx_cons_zero, TreeFile.text, List.map_append, List.append_assoc]
        rfl
      rw [hlast, hsplit, removeLast_append he hafter']
      dsimp only
      rw [herase]
      exact ih { f with entries := before ++ after }
    · have hnone : ∀ e ∈ f.entries, e.isBefore id = false := fun e he => by
        rw [← Bool.not_eq_true]
        exact fun h => hex ⟨e, he, h⟩
      have hlast : lastLine id f.text = none := by
        refine lastLine_eq_none fun line hline => ?_
        rcases List.mem_append.mp hline with hline | hline
        · exact beforeLine_header id f line hline
        · obtain ⟨e, he, rfl⟩ := List.mem_map.mp hline
          rw [beforeLine_text]
          exact hnone e he
      rw [hlast, removeLast_eq_none hnone]
      exact ih ⟨[], [], []⟩

/-! ## The line of weights -/

/-- A leaf, or a file with as many weights as numbers in its link. -/
def TreeFile.Aligned (f : TreeFile) : Prop :=
  (f.priolink = [] ∧ f.entries = []) ∨ f.priolink.length = f.link.length

section Moves

variable {G : DepFiles} {strict : Prop} {c c' : Config}

/-- A frame has as many weights as numbers on its path. -/
theorem OnPath.aligned {d : Dir} {fr : Frame} {cs : List (Frame × Entry)}
    (h : OnPath fr cs) (hw : Waits d cs) : fr.priolink.length = fr.rootlink.length :=
  (h.length_priolink hw).trans (h.length_rootlink hw).symm

theorem Waits.aligned {d : Dir} {cs : List (Frame × Entry)} (h : Waits d cs)
    {x : Frame × Entry} (hx : x ∈ cs) : x.1.priolink.length = x.1.rootlink.length := by
  induction cs with
  | nil => cases hx
  | cons y cs ih =>
    obtain ⟨hpath, -, hrest⟩ := h
    rcases List.mem_cons.mp hx with rfl | hx
    · exact hpath.aligned hrest
    · exact ih hrest hx

/-- Every move keeps the lines of weights as long as the links. -/
theorem aligned_of_step (h : Inv G strict c) (ha : ∀ n f, c.dir.tree n = some f → f.Aligned)
    (hstep : generateDependencyTree c = some c') :
    ∀ n f, c'.dir.tree n = some f → f.Aligned := by
  intro n f hn
  cases move_of_step hstep with
  | finish fr hctl hend =>
    obtain ⟨-, t, T, hrun⟩ := h.running hctl
    by_cases hfile : n = fr.file
    · obtain ⟨es, hes, hsub, -⟩ := hrun.cleanUp_spec h.dir hend fun hf : False => hf.elim
      have htree : (c.dir.cleanTree fr).tree n = some { t with entries := es } := by
        rw [Dir.cleanTree, hrun.tree, hfile, ← hes]
        exact setTree_tree_self
      rw [htree] at hn
      cases hn
      -- cleanUp only removes lines, so a leaf stays one
      refine (ha _ t hrun.tree).imp_left fun hleaf => ⟨hleaf.1, ?_⟩
      rw [hleaf.2] at hsub
      exact List.sublist_nil.mp hsub
    · exact ha n f ((cleanTree_tree_of_ne hfile).symm.trans hn)
  | quit fr e other hctl he hother hnil => exact ha n f hn
  | prune fr e other hctl he hother hnil hcirc hp => exact ha n f hn
  | backUp fr e other hctl he hother hnil hcirc hp => exact ha n f hn
  | skip fr e other hctl he hother hnil hcirc => exact ha n f hn
  | call fr e hctl he hnew hdep =>
    obtain ⟨hpath, -⟩ := h.running hctl
    by_cases hfile : n = e.id
    · subst hfile
      have hf : childFile c.dir fr e = f := Option.some.inj (setTree_tree_self.symm.trans hn)
      rw [← hf]
      -- both links of the new file grow by one
      right
      rw [childFile_priolink hdep, childFile_link, List.length_append, List.length_append,
        hpath.aligned h.waiting]
      rfl
    · exact ha n f ((setTree_tree_of_ne hfile).symm.trans hn)
  | leaf fr e hctl he hnew hdep =>
    by_cases hfile : n = e.id
    · subst hfile
      have hf : childFile c.dir fr e = f := Option.some.inj (setTree_tree_self.symm.trans hn)
      rw [← hf, childFile, if_neg (not_not.mpr hdep)]
      exact Or.inl ⟨rfl, rfl⟩
    · exact ha n f ((setTree_tree_of_ne hfile).symm.trans hn)
  | resume fr e cs hctl hcs => exact ha n f hn
  | exchange fr e cs p2 hctl h0 hp hcs =>
    have hdetached : ∀ {n f}, (c.dir.detach fr e).tree n = some f → f.Aligned := fun h' =>
      ha _ _ (detach_tree.mp h').1
    rcases h.exchange_eq hctl h0 hcs with ⟨-, heq⟩ | ⟨x, hx, -, heq⟩
    · exact hdetached (heq ▸ hn)
    · have hn' : ((c.dir.detach fr e).appendLine x.1.file e).tree n = some f := heq ▸ hn
      by_cases hfile : n = x.1.file
      · -- the parent waits, so it is not a leaf
        subst hfile
        have hmem := List.mem_cons_of_mem (fr, e) hx
        obtain ⟨t, T, outer, -, -, hT⟩ := (h.waits hcs).onPath hmem
        obtain ⟨g, hg, -⟩ := cases_appendLine_tree hn'
        rw [appendLine_tree_self hg] at hn'
        cases hn'
        have hgt : t = g := Option.some.inj (hT.tree.symm.trans (detach_tree.mp hg).1)
        subst hgt
        right
        show t.priolink.length = t.link.length
        rw [hT.priolink, hT.link]
        exact (h.waits hcs).aligned hmem
      · exact hdetached ((appendLine_tree_of_ne hfile).symm.trans hn')
  | popUp fr e cs p2 hctl h0 hp hcs => exact ha n f hn

end Moves

/-! ## The directory at each line -/

/-- What the pass relies on when it reads a line: the `.tree` files have links, which are
distinct and one number longer than those of the files that list them, and as many weights
as numbers. -/
structure TreeDirectory (d : Dir) : Prop where
  nonempty : ∀ n f, d.tree n = some f → f.link ≠ []
  distinct : ∀ m n f g, d.tree m = some f → d.tree n = some g → f.link = g.link → m = n
  parent : ∀ n f, d.tree n = some f → n ≠ rootId →
    ∃ p g k, d.tree p = some g ∧ f.link = g.link ++ [k] ∧ n ∈ idsOf g.entries
  weights : ∀ n f, d.tree n = some f → f.Aligned

section Reaches

variable {G : DepFiles} {c : Config} {fr : Frame}

theorem treeDirectory_of_reaches (h : G.Reaches c) : TreeDirectory c.dir := by
  have hboth : Inv G False c ∧ ∀ n f, c.dir.tree n = some f → f.Aligned := by
    refine Machine.Steps.invariant
      (P := fun s => Inv G False s ∧ ∀ n f, s.dir.tree n = some f → f.Aligned) ?_ h ?_
    · exact fun s t hs hst => ⟨hs.1.step (fun hf => hf.elim) hst, aligned_of_step hs.1 hs.2 hst⟩
    · refine ⟨Inv.start G False, fun n f hn => ?_⟩
      obtain ⟨-, rfl⟩ := start_tree hn
      exact Or.inr rfl
  obtain ⟨hinv, haligned⟩ := hboth
  exact ⟨hinv.dir.linked.nonempty, hinv.dir.linked.inj, hinv.dir.linked.parent, haligned⟩

/-- The node that is read and its ancestors on the recursion stack. -/
def stack (fr : Frame) (cs : List (Frame × Entry)) : List Id := fr.file :: cs.map fun x => x.1.file

/-- **The cycle test is exact.** The nodes whose link is a beginning of the own link are those
that are being processed, and no others. -/
theorem linkTest_iff_mem_stack (h : Inv G False c) (hctl : c.ctl = .run fr) {n : Id}
    {other : TreeFile} (hn : c.dir.tree n = some other) :
    linkTest other.link fr.rootlink = true ↔ n ∈ stack fr c.callers := by
  obtain ⟨hpath, t, T, hrun⟩ := h.running hctl
  have hfile : c.dir.linkOf fr.file = some fr.rootlink :=
    linkOf_eq_some.mpr ⟨t, hrun.tree, hrun.link⟩
  have hnonempty := h.dir.linked.nonempty n other hn
  rw [linkTest_iff hnonempty, stack, List.mem_cons, List.mem_map]
  constructor
  · intro hpre
    by_cases heq : other.link = fr.rootlink
    · exact Or.inl (h.dir.linked.linkOf_inj (heq ▸ linkOf_of_tree hn) hfile)
    · -- the link of the ancestor at that depth
      have hlt : other.link.length ≤ c.callers.length := by
        have hlen := length_calleeLink h.waiting
        have hle := Nat.lt_of_le_of_ne hpre.length_le fun hlength =>
          heq (hpre.eq_of_length hlength)
        rw [hpath.rootlink] at hle
        omega
      obtain ⟨x, hx, hlink⟩ :=
        h.waiting.exists_depth (List.length_pos_iff.mpr hnonempty) hlt
      rw [← hpath.rootlink, ← List.prefix_iff_eq_take.mp hpre] at hlink
      refine Or.inr ⟨x, hx, ?_⟩
      exact h.dir.linked.linkOf_inj (h.waiting.linkOf hx) (hlink ▸ linkOf_of_tree hn)
  · rintro (rfl | ⟨x, hx, rfl⟩)
    · rw [hrun.tree] at hn
      cases hn
      rw [hrun.link]
    · have hlink := h.waiting.linkOf hx
      rw [linkOf_of_tree hn, Option.some.injEq] at hlink
      rw [hlink, hpath.rootlink]
      exact h.waiting.rootlink_above hx

/-- **The clean-up** at the end of a file: the first two lines stay, and one line goes for
each recorded name. -/
theorem cleanUpLines_of_end (h : Inv G False c) (hctl : c.ctl = .run fr)
    (hend : (c.dir.entriesOf fr.file)[fr.count]? = none) :
    ∃ t es, c.dir.tree fr.file = some t ∧
      cleanUpLines t.text fr.linesToRemove = t.header ++ es.map Entry.text ∧
      es.Sublist t.entries ∧ (idsOf t.entries).Perm (fr.linesToRemove ++ idsOf es) := by
  obtain ⟨-, t, T, hrun⟩ := h.running hctl
  obtain ⟨es, hes, hsub, hids, -⟩ := hrun.cleanUp_spec h.dir hend fun hf : False => hf.elim
  refine ⟨t, es, hrun.tree, ?_, hsub, ?_⟩
  · rw [cleanUpLines_text, hes]
    rfl
  · have hall : (idsOf t.entries).Perm (fr.linesToRemove ++ idsOf (keptOf T)) := by
      rw [← (hrun.at_end hend).1, hrun.removed, ← idsOf_append]
      exact (perm_dropped_kept T).map Entry.id
    exact hall.trans (hids.symm.append_left _)

end Reaches

/-- **The third pass at every line it reads**: the files are in order, the test on the links
finds the ancestors, the clean-up removes one line for each name, and the `exit 1` is not
reached. -/
theorem generateDependencyTree_inOrder (G : DepFiles) (c : Config) (h : G.Reaches c) :
    TreeDirectory c.dir ∧
      (∀ fr e other, c.ctl = .run fr → (c.dir.entriesOf fr.file)[fr.count]? = some e →
        c.dir.tree e.id = some other →
        (linkTest other.link fr.rootlink = true ↔ e.id ∈ stack fr c.callers)) ∧
      (∀ fr, c.ctl = .run fr → (c.dir.entriesOf fr.file)[fr.count]? = none →
        ∃ t es, c.dir.tree fr.file = some t ∧
          cleanUpLines t.text fr.linesToRemove = t.header ++ es.map Entry.text ∧
          es.Sublist t.entries ∧ (idsOf t.entries).Perm (fr.linesToRemove ++ idsOf es)) ∧
      c.ctl ≠ .exit := by
  have hinv := inv_of_reaches h
  refine ⟨treeDirectory_of_reaches h, ?_, ?_, hinv.ne_exit⟩
  · exact fun fr e other hctl _ hother => linkTest_iff_mem_stack hinv hctl hother
  · exact fun fr hctl hend => cleanUpLines_of_end hinv hctl hend

/-- At the entry that closes the cycle. -/
theorem twoCycle_inOrder :
    TreeDirectory (Machine.runFor generateDependencyTree 3 twoCycle.start).dir :=
  (generateDependencyTree_inOrder twoCycle _ (Machine.steps_runFor 3 _)).1

end Jhalfs
