import Jhalfs.Base.Position
import Jhalfs.Deps.Tree

/-!
# Linked directories and what `tree_erase` removes

`tree_erase` is given a name and calls itself for the names in its file, if they
lie in this branch (BLFS/libs/func_dependencies:504–530). The file may still hold
lines of edges that were pruned, which lead anywhere.

- `Linked`: the links of the `.tree` files are distinct, and every node but the
  root sits one number below a node whose file lists it. So the links form a
  tree, with the root above every node (`root_above`) and a child on the way to
  each lower node (`child_toward`).
- `Dir.eraseUnder` is the directory without the nodes at and below a link: what
  the function is for.
- `treeErase_eq`: **in a linked directory the name traversal is a traversal of
  positions**. It removes exactly the nodes at and below the link of its
  argument, whatever pruned lines the files still hold.

The loop of one call is followed with `Pruned`: what the calls before have
removed lies strictly below the link, so the two tests on the links still decide
whether a node is below (`belowTest_iff`), and after its turn a name is gone or
not below (`eraseBranch_spec`). The recursion is bounded by the length of the
longest link, as the links grow along the calls.
-/

namespace Jhalfs

theorem linkTest_iff {other root : List Nat} (h : other ≠ []) :
    linkTest other root = true ↔ other <+: root := by
  rw [linkTest, List.isPrefixOf_iff_prefix, Text.numberLine_prefix_iff h]

/-- The links of the directory form a tree: no two nodes have the same one, and each
node but the root has a parent, whose link is one number shorter and whose file
lists the node. -/
structure Linked (d : Dir) : Prop where
  mem : ∀ n f, d.tree n = some f → n ∈ d.names
  nonempty : ∀ n f, d.tree n = some f → f.link ≠ []
  inj : ∀ m n f g, d.tree m = some f → d.tree n = some g → f.link = g.link → m = n
  parent : ∀ n f, d.tree n = some f → n ≠ rootId →
    ∃ p g k, d.tree p = some g ∧ f.link = g.link ++ [k] ∧ n ∈ idsOf g.entries

namespace Linked

variable {d : Dir}

/-- Every node is at or below the root. -/
theorem root_above (h : Linked d) {n : Id} {f : TreeFile} (hn : d.tree n = some f) :
    ∃ r, d.tree rootId = some r ∧ r.link <+: f.link := by
  generalize hlen : f.link.length = len
  induction len using Nat.strongRecOn generalizing n f with
  | _ len ih =>
    by_cases hroot : n = rootId
    · subst hroot
      exact ⟨f, hn, List.prefix_rfl⟩
    · obtain ⟨p, g, k, hp, hlink, -⟩ := h.parent n f hn hroot
      have hlt : g.link.length < len := by
        rw [← hlen, hlink]
        simp
      obtain ⟨r, hr, hpre⟩ := ih _ hlt hp rfl
      refine ⟨r, hr, hpre.trans ?_⟩
      rw [hlink]
      exact List.prefix_append _ _

/-- A node strictly below another is not the root. -/
theorem ne_root_of_below (h : Linked d) {x n : Id} {f g : TreeFile} (hx : d.tree x = some f)
    (hn : d.tree n = some g) (hpre : f.link <+: g.link) (hne : f.link ≠ g.link) :
    n ≠ rootId := by
  rintro rfl
  obtain ⟨r, hr, hrf⟩ := h.root_above hx
  rw [hn] at hr
  cases hr
  exact hne (hpre.eq_of_length (Nat.le_antisymm hpre.length_le hrf.length_le))

/-- Below a node that is not a leaf there is a child on the way. -/
theorem child_toward (h : Linked d) {x n : Id} {f g : TreeFile} (hx : d.tree x = some f)
    (hn : d.tree n = some g) (hpre : f.link <+: g.link) (hne : f.link ≠ g.link) :
    ∃ c t k, d.tree c = some t ∧ t.link = f.link ++ [k] ∧ t.link <+: g.link := by
  generalize hlen : g.link.length = len
  induction len using Nat.strongRecOn generalizing n g with
  | _ len ih =>
    obtain ⟨p, t, k, hp, hlink, -⟩ := h.parent n g hn (h.ne_root_of_below hx hn hpre hne)
    rw [hlink] at hpre hne
    have hft := Position.prefix_of_concat hpre hne
    by_cases heq : f.link = t.link
    · exact ⟨n, g, k, hn, by rw [hlink, heq], List.prefix_rfl⟩
    · have hlt : t.link.length < len := by
        rw [← hlen, hlink]
        simp
      obtain ⟨c, u, j, hc, hu, hut⟩ := ih _ hlt hp hft heq rfl
      exact ⟨c, u, j, hc, hu, hut.trans (by rw [hlink]; exact List.prefix_append _ _)⟩

/-- A child is listed in the file of its parent. -/
theorem child_mem (h : Linked d) {x c : Id} {f t : TreeFile} {k : Nat}
    (hx : d.tree x = some f) (hc : d.tree c = some t) (hlink : t.link = f.link ++ [k]) :
    c ∈ idsOf f.entries := by
  have hne : f.link ≠ t.link := by
    rw [hlink]
    exact fun he => by simpa using congrArg List.length he
  have hpre : f.link <+: t.link := by
    rw [hlink]
    exact List.prefix_append _ _
  obtain ⟨p, g, j, hp, hlink', hmem⟩ :=
    h.parent c t hc (h.ne_root_of_below hx hc hpre hne)
  rw [hlink] at hlink'
  obtain ⟨hfg, -⟩ := List.append_inj' hlink' rfl
  have hxp := h.inj x p f g hx hp hfg
  subst hxp
  rw [hx] at hp
  cases hp
  exact hmem

end Linked

/-! ## Removing the nodes below a link -/

/-- The directory without the nodes at and below the link `r`. -/
def Dir.eraseUnder (d : Dir) (r : List Nat) : Dir :=
  { d with tree := fun n => (d.tree n).filter fun f => !decide (r <+: f.link) }

theorem eraseUnder_tree_eq_some {d : Dir} {r : List Nat} {n : Id} {f : TreeFile} :
    (d.eraseUnder r).tree n = some f ↔ d.tree n = some f ∧ ¬ r <+: f.link := by
  rw [Dir.eraseUnder, Option.filter_eq_some_iff]
  simp

theorem Linked.eraseUnder {d : Dir} (h : Linked d) (r : List Nat) :
    Linked (d.eraseUnder r) where
  mem n f hn := h.mem n f (eraseUnder_tree_eq_some.mp hn).1
  nonempty n f hn := h.nonempty n f (eraseUnder_tree_eq_some.mp hn).1
  inj m n f g hm hn :=
    h.inj m n f g (eraseUnder_tree_eq_some.mp hm).1 (eraseUnder_tree_eq_some.mp hn).1
  parent n f hn hroot := by
    obtain ⟨hn, hnot⟩ := eraseUnder_tree_eq_some.mp hn
    obtain ⟨p, g, k, hp, hlink, hmem⟩ := h.parent n f hn hroot
    refine ⟨p, g, k, eraseUnder_tree_eq_some.mpr ⟨hp, fun hpre => hnot ?_⟩, hlink, hmem⟩
    rw [hlink]
    exact hpre.trans (List.prefix_append _ _)

/-! ## The traversal -/

/-- `d'` is `d` without some of the nodes strictly below the link `r`, and still
linked: what the loop of a call has to do with at each turn. -/
structure Pruned (r : List Nat) (d d' : Dir) : Prop where
  linked : Linked d'
  names : d'.names = d.names
  dep : d'.dep = d.dep
  sub : ∀ n g, d'.tree n = some g → d.tree n = some g
  keep : ∀ n g, d.tree n = some g → ¬ (r <+: g.link ∧ r ≠ g.link) → d'.tree n = some g

theorem Pruned.refl {r : List Nat} {d : Dir} (h : Linked d) : Pruned r d d :=
  ⟨h, rfl, rfl, fun _ _ hn => hn, fun _ _ hn _ => hn⟩

theorem Pruned.eraseUnder {r s : List Nat} {d d' : Dir} (h : Pruned r d d') (hrs : r <+: s)
    (hne : r ≠ s) : Pruned r d (d'.eraseUnder s) where
  linked := h.linked.eraseUnder s
  names := h.names
  dep := h.dep
  sub n g hn := h.sub n g (eraseUnder_tree_eq_some.mp hn).1
  keep n g hn hnot := by
    refine eraseUnder_tree_eq_some.mpr ⟨h.keep n g hn hnot, fun hsg => hnot ⟨hrs.trans hsg, ?_⟩⟩
    rintro rfl
    exact hne (hrs.eq_of_length (Nat.le_antisymm hrs.length_le hsg.length_le))

/-- The two tests on the links: the node is strictly below `r`. -/
theorem belowTest_iff {r : List Nat} (hr : r ≠ []) {d : Dir} (h : Linked d) {x : Id} {f : TreeFile}
    (hx : d.tree x = some f) :
    (linkTest r f.link && !linkTest f.link r) = true ↔ r <+: f.link ∧ r ≠ f.link := by
  rw [Bool.and_eq_true, Bool.not_eq_true', ← Bool.not_eq_true, linkTest_iff hr,
    linkTest_iff (h.nonempty x f hx)]
  refine and_congr_right fun hrf => not_congr ⟨fun hfr => ?_, fun he => he ▸ List.prefix_rfl⟩
  exact hrf.eq_of_length (Nat.le_antisymm hrf.length_le hfr.length_le)

/-- The loop body on the node `x`: afterwards `x` is gone or not strictly below
`r`. -/
theorem eraseBranch_spec {erase : Dir → Id → Dir} {d₀ : Dir} {r : List Nat} (hr : r ≠ [])
    (ih : ∀ (d : Dir) (x : Id) (f : TreeFile), Pruned r d₀ d → d.tree x = some f →
      r <+: f.link → r ≠ f.link → erase d x = d.eraseUnder f.link)
    {d : Dir} (hd : Pruned r d₀ d) (x : Id) :
    Pruned r d₀ (eraseBranch erase r d x) ∧
      (∀ n g, (eraseBranch erase r d x).tree n = some g → d.tree n = some g) ∧
      ∀ g, (eraseBranch erase r d x).tree x = some g → ¬ (r <+: g.link ∧ r ≠ g.link) := by
  cases hx : d.tree x with
  | none =>
    have he : eraseBranch erase r d x = d := by rw [eraseBranch, hx]
    rw [he]
    refine ⟨hd, fun _ _ h => h, fun g hg => ?_⟩
    rw [hx] at hg
    cases hg
  | some f =>
    -- no link is empty, so the test is that of being strictly below
    have htest := belowTest_iff hr hd.linked hx
    by_cases hb : r <+: f.link ∧ r ≠ f.link
    · have he : eraseBranch erase r d x = d.eraseUnder f.link := by
        rw [eraseBranch, hx]
        dsimp only
        rw [if_pos (htest.mpr hb), ih d x f hd hx hb.1 hb.2]
      rw [he]
      refine ⟨hd.eraseUnder hb.1 hb.2, fun n g hg => (eraseUnder_tree_eq_some.mp hg).1,
        fun g hg => ?_⟩
      obtain ⟨hg, hnot⟩ := eraseUnder_tree_eq_some.mp hg
      rw [hx] at hg
      cases hg
      exact absurd List.prefix_rfl hnot
    · have he : eraseBranch erase r d x = d := by
        rw [eraseBranch, hx]
        dsimp only
        rw [if_neg fun h => hb (htest.mp h)]
      rw [he]
      refine ⟨hd, fun _ _ h => h, fun g hg => ?_⟩
      rw [hx] at hg
      cases hg
      exact hb

/-- The loop of one call, when its recursive calls erase what they should. -/
theorem eraseLoop_spec {erase : Dir → Id → Dir} {d₀ : Dir} {r : List Nat} (hr : r ≠ [])
    (ih : ∀ (d : Dir) (x : Id) (f : TreeFile), Pruned r d₀ d → d.tree x = some f →
      r <+: f.link → r ≠ f.link → erase d x = d.eraseUnder f.link) :
    ∀ (ids : List Id) (d : Dir), Pruned r d₀ d →
      Pruned r d₀ (ids.foldl (eraseBranch erase r) d) ∧
        (∀ n g, (ids.foldl (eraseBranch erase r) d).tree n = some g → d.tree n = some g) ∧
        ∀ n ∈ ids, ∀ g, (ids.foldl (eraseBranch erase r) d).tree n = some g →
          ¬ (r <+: g.link ∧ r ≠ g.link)
  | [], d, hd => ⟨hd, fun _ _ h => h, fun n hn => absurd hn List.not_mem_nil⟩
  | x :: ids, d, hd => by
    obtain ⟨hd₁, hsub₁, hx₁⟩ := eraseBranch_spec hr ih hd x
    obtain ⟨hd', hsub', hall⟩ := eraseLoop_spec hr ih ids _ hd₁
    refine ⟨hd', fun n g hg => hsub₁ n g (hsub' n g hg), fun n hn g hg => ?_⟩
    rcases List.mem_cons.mp hn with rfl | hn
    · exact hx₁ g (hsub' n g hg)
    · exact hall n hn g hg

/-- Below a lower node the height is less. -/
theorem height_below {d d' : Dir} {r s : List Nat} {fuel : Nat} (hd' : Pruned r d d')
    (hfuel : ∀ n g, d.tree n = some g → r <+: g.link → g.link.length < r.length + (fuel + 1))
    (hpre : r <+: s) (hne : r ≠ s) (n : Id) (t : TreeFile) (hn : d'.tree n = some t)
    (hst : s <+: t.link) : t.link.length < s.length + fuel := by
  have h₁ := hfuel n t (hd'.sub n t hn) (hpre.trans hst)
  have h₂ : r.length < s.length :=
    Nat.lt_of_le_of_ne hpre.length_le fun he => hne (hpre.eq_of_length he)
  omega

/-- **What `tree_erase` removes**: the nodes at and below the link of its
argument, and nothing else, once the bound exceeds the height of the subtree. -/
theorem treeEraseAux_eq :
    ∀ (fuel : Nat) (d : Dir) (x : Id) (f : TreeFile), Linked d → d.tree x = some f →
      (∀ n g, d.tree n = some g → f.link <+: g.link →
        g.link.length < f.link.length + fuel) →
      treeEraseAux fuel d x = d.eraseUnder f.link
  | 0, d, x, f, _, hx, hfuel => by
    have := hfuel x f hx List.prefix_rfl
    omega
  | fuel + 1, d, x, f, hd, hx, hfuel => by
    have ih : ∀ (d' : Dir) (y : Id) (g : TreeFile), Pruned f.link d d' → d'.tree y = some g →
        f.link <+: g.link → f.link ≠ g.link → treeEraseAux fuel d' y = d'.eraseUnder g.link := by
      intro d' y g hd' hy hpre hne
      exact treeEraseAux_eq fuel d' y g hd'.linked hy (height_below hd' hfuel hpre hne)
    obtain ⟨hd', -, hall⟩ :=
      eraseLoop_spec (hd.nonempty x f hx) ih (idsOf f.entries) d (Pruned.refl hd)
    generalize hfold : (idsOf f.entries).foldl (eraseBranch (treeEraseAux fuel) f.link) d = d'
      at hd' hall
    have hx' : d'.tree x = some f := hd'.keep x f hx fun h => h.2 rfl
    -- nothing is left strictly below `x`: it would be below a listed child
    have hgone : ∀ n g, d'.tree n = some g → f.link <+: g.link → f.link = g.link := by
      intro n g hn hpre
      by_contra hne
      obtain ⟨c, t, k, hc, ht, -⟩ := hd'.linked.child_toward hx' hn hpre hne
      have hmem := hd'.linked.child_mem hx' hc ht
      refine hall c hmem t hc ⟨by rw [ht]; exact List.prefix_append _ _, fun he => ?_⟩
      rw [ht] at he
      simpa using congrArg List.length he
    have he : treeEraseAux (fuel + 1) d x = d'.removeTree x := by
      rw [treeEraseAux, hx]
      dsimp only
      rw [hfold]
    rw [he]
    have htree : Function.update d'.tree x none = (d.eraseUnder f.link).tree := by
      funext n
      by_cases hnx : n = x
      · subst hnx
        rw [Function.update_self]
        symm
        rw [Option.eq_none_iff_forall_ne_some]
        intro g hg
        obtain ⟨hg, hnot⟩ := eraseUnder_tree_eq_some.mp hg
        rw [hx] at hg
        cases hg
        exact hnot List.prefix_rfl
      · rw [Function.update_of_ne hnx]
        ext g
        rw [eraseUnder_tree_eq_some]
        constructor
        · intro hn
          refine ⟨hd'.sub n g hn, fun hpre => hnx ?_⟩
          exact (hd'.linked.inj x n f g hx' hn (hgone n g hn hpre)).symm
        · rintro ⟨hn, hnot⟩
          exact hd'.keep n g hn fun h => hnot h.1
    rw [Dir.removeTree, htree, hd'.names, hd'.dep]
    rfl

theorem length_le_maxLink {d : Dir} (h : Linked d) {n : Id} {f : TreeFile}
    (hn : d.tree n = some f) : f.link.length ≤ d.maxLink := by
  have hmem := h.mem n f hn
  unfold Dir.maxLink
  generalize d.names = names at hmem
  induction names with
  | nil => cases hmem
  | cons m ms ih =>
    rw [List.map_cons, List.foldr_cons]
    rcases List.mem_cons.mp hmem with rfl | hmem
    · rw [hn]
      exact le_max_left _ _
    · exact (ih hmem).trans (le_max_right _ _)

/-- `tree_erase` on a node of a linked directory. -/
theorem treeErase_eq {d : Dir} (h : Linked d) {x : Id} {f : TreeFile}
    (hx : d.tree x = some f) : treeErase d x = d.eraseUnder f.link := by
  refine treeEraseAux_eq _ d x f h hx fun n g hn _ => ?_
  have := length_le_maxLink h hn
  omega

end Jhalfs
