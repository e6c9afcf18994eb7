import Jhalfs.Deps.Browse

/-!
# The printed order

`tree_browse` prints the tree in post-order when every file lists its children in
the order in which they were built, and each line left in a `.dep` file names a
node that comes before its own in post-order. So the end of every edge that is
left is printed before its beginning (`respectsEdges_of_keepsFirst`), and a
package is built after what it depends on.

The clean-up of a frame can break the first part: it deletes the *last* lines of
the recorded names. If the frame has kept a later line of a name after it removed
an earlier one, what is left is the earlier line, in front of nodes that were
built before it (`duplicates`). Whether the next step is such a clean-up can be
read off the state (`keepsFirst`).

- `DepFiles.RespectsEdges` is the property: of every state in which the pass can
  return, for every line that is still in the `.dep` file of a printed node.
- `DepFiles.ofTable` makes the files of a small input; `twoCycle` and
  `duplicates` are such inputs, and their runs are computed.
-/

namespace Jhalfs

open Machine Position

/-- Two members of a list come in one order or the other. -/
theorem pair_sublist_or {α : Type*} {a b : α} {l : List α} (ha : a ∈ l) (hb : b ∈ l)
    (hne : a ≠ b) : [a, b].Sublist l ∨ [b, a].Sublist l := by
  induction l with
  | nil => cases ha
  | cons x l ih =>
    rcases List.mem_cons.mp ha with rfl | ha'
    · have hb' := (List.mem_cons.mp hb).resolve_left (Ne.symm hne)
      exact Or.inl (List.cons_sublist_cons.mpr (List.singleton_sublist.mpr hb'))
    · rcases List.mem_cons.mp hb with rfl | hb'
      · exact Or.inr (List.cons_sublist_cons.mpr (List.singleton_sublist.mpr ha'))
      · exact (ih ha' hb').imp (List.Sublist.cons x) (List.Sublist.cons x)

/-- In a list in post-order, what comes before in the tree comes before. -/
theorem sublist_of_before {d : Dir} {out : List Id} (hout : out.Pairwise d.PostOrder) {a b : Id}
    (ha : a ∈ out) (hb : b ∈ out) {la lb : List Nat} (hla : d.linkOf a = some la)
    (hlb : d.linkOf b = some lb) (hbefore : Before lb la) : [b, a].Sublist out := by
  have hne : b ≠ a := by
    rintro rfl
    rw [hla] at hlb
    cases hlb
    exact before_asymm hbefore hbefore
  refine (pair_sublist_or hb ha hne).resolve_right fun hsub => ?_
  exact before_asymm hbefore (List.pairwise_iff_forall_sublist.mp hout hsub la lb hla hlb)

/-- A node at the root of the tree is not before any other. -/
theorem Finished.ne_root_of_before {strict : Prop} {d : Dir} (h : Finished strict d) {a b : Id}
    {la lb : List Nat} (hla : d.linkOf a = some la) (hlb : d.linkOf b = some lb)
    (hbefore : Before lb la) : b ≠ rootId := by
  rintro rfl
  obtain ⟨f, hf, rfl⟩ := linkOf_eq_some.mp hla
  obtain ⟨r, hr, hpre⟩ := h.linked.root_above hf
  rw [linkOf_of_tree hr, Option.some.injEq] at hlb
  subst hlb
  rcases hbefore with ⟨hfr, hne⟩ | hleft
  · exact hne (hfr.eq_of_length (Nat.le_antisymm hfr.length_le hpre.length_le))
  · exact not_leftOf_of_above hpre hleft

/-- A line left in the `.dep` file of a printed node names a node printed before
it. -/
theorem Finished.sublist_of_mem_dep {d : Dir} (h : Finished True d) {out : List Id}
    (hmem : ∀ n, n ∈ out ↔ n ≠ rootId ∧ d.linkOf n ≠ none) (horder : out.Pairwise d.PostOrder)
    {a : Id} (ha : a ∈ out) {e : Entry} (he : e ∈ d.dep a) : [e.id, a].Sublist out := by
  obtain ⟨la, hla⟩ := Option.ne_none_iff_exists'.mp ((hmem a).mp ha).2
  obtain ⟨t, ht, rfl⟩ := linkOf_eq_some.mp hla
  obtain ⟨le, hle, hbefore⟩ := h.deps a t ht e he
  have hmem' : e.id ∈ out := by
    refine (hmem e.id).mpr ⟨h.ne_root_of_before hla hle hbefore, ?_⟩
    rw [hle]
    exact Option.some_ne_none le
  exact sublist_of_before horder ha hmem' hla hle hbefore

/-- What is asked of the printed order: each line still in the `.dep` file of a
printed node names a node printed before it. -/
def DepFiles.RespectsEdges (G : DepFiles) : Prop :=
  ∀ d, G.Returns d → ∃ out, d.list = some out ∧ ∀ a ∈ out, ∀ e ∈ d.dep a, [e.id, a].Sublist out

/-- **The printed order respects the edges that are left**, when no clean-up of
the run meets a line kept after a removed one of its name. -/
theorem respectsEdges_of_keepsFirst (G : DepFiles)
    (hkeeps : ∀ c, G.Reaches c → keepsFirst c = true) : G.RespectsEdges := by
  rintro d ⟨c, hc, hctl, hcs, rfl⟩
  have hfin : Finished True c.dir := (Inv.of_reaches (fun _ => hkeeps) hc).finished hctl hcs
  obtain ⟨out, hout, -, hmem, horder⟩ := hfin.list
  exact ⟨out, hout, fun a ha e he => hfin.sublist_of_mem_dep hmem (horder trivial) ha he⟩

/-! ## Small inputs -/

/-- The packages are distinct, and the lines of the table are `b` edges between
them. -/
def tableOk (pkgs : List Id) (table : List (Id × List Entry)) : Bool :=
  distinct (rootId :: pkgs) && (rootId :: pkgs).all fun n =>
    (depOf table n).all fun e => e.build == .b && (rootId :: pkgs).contains e.id

/-- The `.dep` files of a table. -/
def DepFiles.ofTable (pkgs : List Id) (table : List (Id × List Entry))
    (h : tableOk pkgs table = true) : DepFiles where
  pkgs := pkgs
  dep := depOf table
  nodup := (List.nodup_cons.mp (nodup_of_distinct (Bool.and_eq_true_iff.mp h).1)).2
  root_notMem := (List.nodup_cons.mp (nodup_of_distinct (Bool.and_eq_true_iff.mp h).1)).1
  target n hn e he := by
    have := List.all_eq_true.mp (List.all_eq_true.mp (Bool.and_eq_true_iff.mp h).2 n hn) e he
    simpa using (Bool.and_eq_true_iff.mp this).2
  before n hn e he := by
    have := List.all_eq_true.mp (List.all_eq_true.mp (Bool.and_eq_true_iff.mp h).2 n hn) e he
    simpa using (Bool.and_eq_true_iff.mp this).1

/-- The nodes at most `k` edges away from root. -/
def DepFiles.within (G : DepFiles) : Nat → List Id
  | 0 => [rootId]
  | k + 1 => G.within k ++ (G.within k).flatMap fun n => idsOf (G.dep n)

theorem DepFiles.dependsOn_of_mem_within {G : DepFiles} {k : Nat} {n : Id}
    (h : n ∈ G.within k) : DependsOn G.dep rootId n := by
  induction k generalizing n with
  | zero =>
    rw [List.mem_singleton.mp h]
    exact Relation.ReflTransGen.refl
  | succ k ih =>
    rcases List.mem_append.mp h with h | h
    · exact ih h
    · obtain ⟨m, hm, hn⟩ := List.mem_flatMap.mp h
      exact (ih hm).tail hn

section

open Sample

/-- `x` and `y` depend on each other, `y` by the stronger edge: the edge from
`x` to `y` is exchanged. -/
def twoCycle : DepFiles :=
  .ofTable [w, x, y]
    [(rootId, [required w]), (w, [required x]),
      (x, [recommended y]), (y, [required x])]
    (by decide +kernel)

theorem twoCycle_respectsEdges : twoCycle.RespectsEdges :=
  respectsEdges_of_keepsFirst twoCycle fun _ hc => allFor_sound (n := 40) (by decide +kernel) hc

/-- `x` lists `y` twice. The first line is exchanged, as `y` leads back to `x`; the
second is kept, after `z`. -/
def duplicates : DepFiles :=
  .ofTable [w, x, y, z]
    [(rootId, [required w]), (w, [required x]),
      (x, [recommended y, required z, required y]),
      (y, [required x, required z])]
    (by decide +kernel)

/-- The clean-up of `x` deletes the second line of `y`, so `y` is printed before
`z`, which it still lists. -/
theorem duplicates_not_respectsEdges :
    duplicates.AllReachable ∧ ¬ duplicates.RespectsEdges := by
  refine ⟨?_, fun h => ?_⟩
  · exact fun n hn => DepFiles.dependsOn_of_mem_within (k := 3) (by revert n hn; decide)
  · obtain ⟨out, hout, hedges⟩ := h (runFor generateDependencyTree 40 duplicates.start).dir
      ⟨_, steps_runFor 40 _, by decide +kernel, by decide +kernel, rfl⟩
    have hlist : (runFor generateDependencyTree 40 duplicates.start).dir.list =
        some [y, z, x, w] := by decide +kernel
    rw [hlist] at hout
    cases hout
    have := hedges y (by decide) (required z) (by decide +kernel)
    revert this
    decide

end

end Jhalfs
