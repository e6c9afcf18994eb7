import Mathlib.Data.List.Nodup
import Jhalfs.Deps.Run

/-!
# The printed list

When the pass has returned, `LIST="$(tree_browse root.tree)"` prints the tree
(BLFS/libs/func_dependencies:488–501). The function reads the names in a file,
prints what is below each of them and then the name itself.

- `Finished` is what the invariant says of the final state: the files are
  linked, every node's file lists its children, and each line of a `.dep` file
  names a node that comes before its own in post-order.
- `Browsed` and `BrowsedEntry` say what a printed piece has to be: the nodes
  strictly below a link, or at and below it, each once, and in post-order if the
  files list the children in the order in which they were built (`strict`).
- `Finished.browse`: **`tree_browse` prints every node strictly below its
  argument exactly once**. The induction is on the bound of the recursion; the
  pieces of the children are disjoint because their links are
  (`Tidy.browsed`).
- `Finished.list`: the whole list has every node but the root.
-/

namespace Jhalfs

open Position

/-- A directory that the pass has left: linked, with the children of every node listed
in its file, and with lines in the `.dep` files that only lead to nodes which come
before in post-order. -/
structure Finished (strict : Prop) (d : Dir) : Prop where
  linked : Linked d
  root : d.linkOf rootId = some [1]
  tidy : ∀ u t, d.tree u = some t → Tidy strict d t
  deps : ∀ u t, d.tree u = some t → ∀ e ∈ d.dep u,
    ∃ l, d.linkOf e.id = some l ∧ Before l t.link

/-- What the invariant says of the final state. -/
theorem Inv.finished {G : DepFiles} {strict : Prop} {c : Config} (h : Inv G strict c)
    (hctl : c.ctl = .ret 0) (hcs : c.callers = []) : Finished strict c.dir := by
  have hall : ∀ u t, c.dir.tree u = some t → Settled c t.link := by
    intro u t hu
    obtain ⟨r, hr, hpre⟩ := h.dir.linked.root_above hu
    have hroot := h.dir.root
    rw [linkOf_of_tree hr, Option.some.injEq] at hroot
    rw [settled_ret_zero hctl, hcs]
    rw [hroot] at hpre
    exact Or.inr hpre
  refine ⟨h.dir.linked, h.dir.root, fun u t hu => (h.settled u t hu (hall u t hu)).2,
    fun u t hu e he => ?_⟩
  obtain ⟨l, hl, -, hbefore⟩ := (h.settled u t hu (hall u t hu)).1 e he
  exact ⟨l, hl, hbefore⟩

/-- `a` comes before `b` in post-order: the links of the tree give each node a position, and the
walk prints a node behind those below it. -/
def Dir.PostOrder (d : Dir) (a b : Id) : Prop :=
  ∀ la lb, d.linkOf a = some la → d.linkOf b = some lb → Before la lb

/-- `out` has the nodes strictly below the link `r`, each once: what the call on a
file with this link prints. -/
structure Browsed (strict : Prop) (d : Dir) (r : List Nat) (out : List Id) : Prop where
  nodup : out.Nodup
  mem : ∀ n, n ∈ out ↔ ∃ l, d.linkOf n = some l ∧ r <+: l ∧ r ≠ l
  order : strict → out.Pairwise d.PostOrder

/-- `out` has the nodes at and below the link `r`, each once: what an entry whose node
has this link prints. -/
structure BrowsedEntry (strict : Prop) (d : Dir) (r : List Nat) (out : List Id) : Prop where
  nodup : out.Nodup
  mem : ∀ n, n ∈ out ↔ ∃ l, d.linkOf n = some l ∧ r <+: l
  order : strict → out.Pairwise d.PostOrder

theorem mapM_eq_some_map {α β : Type} {f : α → Option β} {g : α → β} {l : List α}
    (h : ∀ x ∈ l, f x = some (g x)) : l.mapM f = some (l.map g) := by
  induction l with
  | nil => rfl
  | cons x l ih =>
    rw [List.mapM_cons, h x List.mem_cons_self, ih fun y hy => h y (List.mem_cons_of_mem _ hy)]
    rfl

section Browse

variable {strict : Prop} {d : Dir}

/-- The node of an entry is printed after what is below it. -/
theorem Browsed.concat (hd : Linked d) {r : List Nat} {out : List Id} {n : Id}
    (h : Browsed strict d r out) (hn : d.linkOf n = some r) :
    BrowsedEntry strict d r (out ++ [n]) where
  nodup := by
    refine List.nodup_append'.mpr ⟨h.nodup, List.nodup_singleton n, ?_⟩
    rintro m hm hmn
    rw [List.mem_singleton] at hmn
    subst hmn
    obtain ⟨l, hl, -, hne⟩ := (h.mem m).mp hm
    rw [hn] at hl
    exact hne (Option.some.inj hl)
  mem m := by
    rw [List.mem_append, h.mem m, List.mem_singleton]
    constructor
    · rintro (⟨l, hl, hpre, -⟩ | rfl)
      · exact ⟨l, hl, hpre⟩
      · exact ⟨r, hn, List.prefix_rfl⟩
    · rintro ⟨l, hl, hpre⟩
      by_cases heq : r = l
      · subst heq
        exact Or.inr (hd.linkOf_inj hl hn)
      · exact Or.inl ⟨l, hl, hpre, heq⟩
  order hs := by
    refine List.pairwise_append.mpr ⟨h.order hs, List.pairwise_singleton _ _, ?_⟩
    intro m hm k hk la lb hla hlb
    rw [List.mem_singleton.mp hk, hn] at hlb
    obtain ⟨l, hl, hpre, hne⟩ := (h.mem m).mp hm
    rw [hl] at hla
    cases hla
    cases hlb
    exact Or.inl ⟨hpre, hne⟩

/-- The children of a node, by number. -/
theorem Children.link_of_mem {l : List Nat} {T : List (Entry × Bool)} (h : Children d l T)
    {n : Id} (hn : n ∈ idsOf (keptOf T)) : ∃ k, d.linkOf n = some (l ++ [k]) := by
  obtain ⟨e, he, rfl⟩ := mem_idsOf.mp hn
  obtain ⟨i, hi⟩ := mem_keptOf.mp he
  exact ⟨i + 1, (h e.id (i + 1)).mpr ⟨i, e, rfl, hi, rfl⟩⟩

/-- A node is kept once, and the kept nodes come in the order of their
numbers. -/
theorem Children.pairwise_kept {l : List Nat} {T : List (Entry × Bool)} (h : Children d l T) :
    (keptOf T).Pairwise fun x y => ∃ i j, i < j ∧ d.linkOf x.id = some (l ++ [i]) ∧
      d.linkOf y.id = some (l ++ [j]) := by
  rw [keptOf, List.pairwise_map]
  have hall : T.Pairwise fun x y => x.2 = true → y.2 = true →
      ∃ i j, i < j ∧ d.linkOf x.1.id = some (l ++ [i]) ∧ d.linkOf y.1.id = some (l ++ [j]) := by
    refine List.pairwise_iff_getElem.mpr fun i j hi hj hij hx hy => ?_
    refine ⟨i + 1, j + 1, by omega, (h _ _).mpr ⟨i, T[i].1, rfl, ?_, rfl⟩,
      (h _ _).mpr ⟨j, T[j].1, rfl, ?_, rfl⟩⟩
    · rw [List.getElem?_eq_getElem hi, ← hx]
    · rw [List.getElem?_eq_getElem hj, ← hy]
  refine (hall.sublist List.filter_sublist).imp_of_mem fun {x y} hx hy hxy => ?_
  exact hxy (List.mem_filter.mp hx).2 (List.mem_filter.mp hy).2

theorem Children.nodup_kept {l : List Nat} {T : List (Entry × Bool)} (h : Children d l T) :
    (idsOf (keptOf T)).Nodup := by
  rw [idsOf, List.Nodup, List.pairwise_map]
  refine h.pairwise_kept.imp ?_
  rintro x y ⟨i, j, hij, hx, hy⟩ heq
  rw [heq, hy, Option.some.injEq, List.append_cancel_left_eq, List.cons.injEq] at hx
  omega

/-- The entries of a file, each browsed, make up what is below its node. -/
theorem Tidy.browsed (hd : Linked d) {u : Id} {t : TreeFile} (hu : d.tree u = some t)
    (h : Tidy strict d t) {g : Entry → List Id}
    (hg : ∀ e ∈ t.entries, ∀ l, d.linkOf e.id = some l → BrowsedEntry strict d l (g e)) :
    Browsed strict d t.link (t.entries.flatMap g) := by
  obtain ⟨T, hperm, hstrict, hch⟩ := h
  have hlink : ∀ e ∈ t.entries, ∃ k, d.linkOf e.id = some (t.link ++ [k]) := fun e he =>
    hch.link_of_mem (hperm.subset (mem_idsOf.mpr ⟨e, he, rfl⟩))
  refine ⟨List.nodup_flatMap.mpr ⟨fun e he => ?_, ?_⟩, fun n => ?_, fun hs => ?_⟩
  · obtain ⟨k, hk⟩ := hlink e he
    exact (hg e he _ hk).nodup
  · have hids : t.entries.Pairwise fun x y => x.id ≠ y.id := by
      have := hperm.nodup_iff.mpr hch.nodup_kept
      rwa [idsOf, List.Nodup, List.pairwise_map] at this
    refine hids.imp_of_mem fun {x y} hx hy hne n hnx hny => ?_
    -- what is below two children is below the same one
    obtain ⟨i, hi⟩ := hlink x hx
    obtain ⟨j, hj⟩ := hlink y hy
    obtain ⟨l, hl, hil⟩ := ((hg x hx _ hi).mem n).mp hnx
    obtain ⟨l', hl', hjl⟩ := ((hg y hy _ hj).mem n).mp hny
    rw [hl] at hl'
    cases hl'
    have hpre := List.prefix_of_prefix_length_le hil hjl (by simp)
    have heq := hpre.eq_of_length (by simp)
    rw [← heq] at hj
    exact hne (hd.linkOf_inj hi hj)
  · rw [List.mem_flatMap]
    constructor
    · rintro ⟨e, he, hn⟩
      obtain ⟨k, hk⟩ := hlink e he
      obtain ⟨l, hl, hpre⟩ := ((hg e he _ hk).mem n).mp hn
      refine ⟨l, hl, (List.prefix_append _ _).trans hpre, ?_⟩
      rintro rfl
      exact absurd hpre.length_le (by simp)
    · rintro ⟨l, hl, hpre, hne⟩
      obtain ⟨f, hf, rfl⟩ := linkOf_eq_some.mp hl
      -- a file below is below one of the children, which has kept its line
      obtain ⟨c, tc, k, hc, hlc, hcl⟩ := hd.child_toward hu hf hpre hne
      have hck : d.linkOf c = some (t.link ++ [k]) := linkOf_eq_some.mpr ⟨tc, hc, hlc⟩
      obtain ⟨e, he, rfl⟩ := mem_idsOf.mp (hperm.symm.subset (hch.mem_kept hck))
      exact ⟨e, he, ((hg e he _ hck).mem n).mpr ⟨f.link, hl, hlc ▸ hcl⟩⟩
  · rw [List.pairwise_flatMap]
    refine ⟨fun e he => ?_, ?_⟩
    · obtain ⟨k, hk⟩ := hlink e he
      exact (hg e he _ hk).order hs
    · have hkept := hch.pairwise_kept
      rw [← hstrict hs] at hkept
      refine hkept.imp_of_mem fun {x y} hx hy hxy a ha b hb la lb hla hlb => ?_
      obtain ⟨i, j, hij, hi, hj⟩ := hxy
      obtain ⟨l, hl, hil⟩ := ((hg x hx _ hi).mem a).mp ha
      obtain ⟨l', hl', hjl⟩ := ((hg y hy _ hj).mem b).mp hb
      rw [hla] at hl
      rw [hlb] at hl'
      cases hl
      cases hl'
      exact Or.inr (leftOf_prefix_left (leftOf_of_below (leftOf_append hij) hjl) hil)

/-- **What `tree_browse` prints**: the nodes strictly below its argument, each
once, when the bound exceeds the height of the subtree. -/
theorem Finished.browse (h : Finished strict d) :
    ∀ (fuel : Nat) (u : Id) (t : TreeFile), d.tree u = some t →
      (∀ n f, d.tree n = some f → t.link <+: f.link →
        f.link.length < t.link.length + fuel) →
      ∃ out, treeBrowse fuel d u = some out ∧ Browsed strict d t.link out
  | 0, u, t, hu, hfuel => by
    have := hfuel u t hu List.prefix_rfl
    omega
  | fuel + 1, u, t, hu, hfuel => by
    have htidy := h.tidy u t hu
    have hentry : ∀ e ∈ t.entries, ∃ s, browseEntry (treeBrowse fuel d) d e = some s ∧
        ∀ l, d.linkOf e.id = some l → BrowsedEntry strict d l s := by
      intro e he
      obtain ⟨T, hperm, -, hch⟩ := htidy
      obtain ⟨k, hk⟩ := hch.link_of_mem (hperm.subset (mem_idsOf.mpr ⟨e, he, rfl⟩))
      obtain ⟨te, hte, hlink⟩ := linkOf_eq_some.mp hk
      -- a child without lines is not browsed; any other is, with a longer link
      obtain ⟨out, hout, hspec⟩ : ∃ out, (if te.entries ≠ [] then treeBrowse fuel d e.id
          else some []) = some out ∧ Browsed strict d te.link out := by
        by_cases hne : te.entries = []
        · refine ⟨[], by rw [if_neg (not_not.mpr hne)], ?_⟩
          have := (h.tidy e.id te hte).browsed h.linked hte (g := fun _ => []) (by simp [hne])
          rwa [hne] at this
        · have hbelow : t.link <+: te.link := by
            rw [hlink]
            exact List.prefix_append _ _
          obtain ⟨out, hout, hspec⟩ := h.browse fuel e.id te hte fun n f hn hpre => by
            have := hfuel n f hn (hbelow.trans hpre)
            rw [hlink, List.length_append, List.length_singleton]
            omega
          exact ⟨out, by rw [if_pos hne]; exact hout, hspec⟩
      refine ⟨out ++ [e.id], ?_, fun l hl => ?_⟩
      · rw [browseEntry, Dir.entriesOf, hte]
        dsimp only
        by_cases hne : te.entries = []
        · rw [if_neg (not_not.mpr hne)] at hout ⊢
          cases hout
          rfl
        · rw [if_pos hne] at hout ⊢
          rw [hout]
          rfl
      · rw [hk] at hl
        cases hl
        rw [← hlink]
        exact hspec.concat h.linked (hlink ▸ hk)
    have hmap : ∀ e ∈ t.entries, browseEntry (treeBrowse fuel d) d e =
        some ((browseEntry (treeBrowse fuel d) d e).getD []) := by
      intro e he
      obtain ⟨s, hs, -⟩ := hentry e he
      rw [hs]
      rfl
    refine ⟨t.entries.flatMap fun e => (browseEntry (treeBrowse fuel d) d e).getD [], ?_,
      htidy.browsed h.linked hu fun e he l hl => ?_⟩
    · rw [treeBrowse, Dir.entriesOf, hu]
      dsimp only
      rw [mapM_eq_some_map hmap]
      rfl
    · obtain ⟨s, hs, hspec⟩ := hentry e he
      rw [hs]
      exact hspec l hl

/-- **The printed list**: every node but the root, each once. -/
theorem Finished.list (h : Finished strict d) :
    ∃ out, d.list = some out ∧ out.Nodup ∧
      (∀ n, n ∈ out ↔ n ≠ rootId ∧ d.linkOf n ≠ none) ∧
      (strict → out.Pairwise d.PostOrder) := by
  obtain ⟨r, hr, hrl⟩ := linkOf_eq_some.mp h.root
  obtain ⟨out, hout, hspec⟩ := h.browse (d.maxLink + 1) rootId r hr fun n f hn _ => by
    have := length_le_maxLink h.linked hn
    omega
  refine ⟨out, hout, hspec.nodup, fun n => ?_, hspec.order⟩
  rw [hspec.mem, hrl]
  constructor
  · rintro ⟨l, hl, -, hne⟩
    refine ⟨?_, by rw [hl]; exact Option.some_ne_none l⟩
    rintro rfl
    rw [h.root] at hl
    exact hne (Option.some.inj hl)
  · rintro ⟨hne, hsome⟩
    obtain ⟨l, hl⟩ := Option.ne_none_iff_exists'.mp hsome
    obtain ⟨f, hf, rfl⟩ := linkOf_eq_some.mp hl
    obtain ⟨r', hr', hpre⟩ := h.linked.root_above hf
    rw [hr] at hr'
    cases hr'
    rw [hrl] at hpre
    refine ⟨f.link, hl, hpre, fun heq => hne ?_⟩
    exact h.linked.linkOf_inj hl (heq ▸ h.root)

end Browse

end Jhalfs
