import Jhalfs.Deps.Coverage

/-!
# Which edges the pass sacrifices

The pass removes an edge only when it lies on a cycle none of whose edges is
weaker: it prunes the edge that closes a cycle if no edge on the way is weaker,
and exchanges a weakest one otherwise. The cycle is one of the graph it works
on, in which an exchange has given the end of the edge to the parent of the
cycle (`Reattached`). Such a shortcut can be stronger than the path it replaces,
so the cycle need not be one of the input (`shortcut`). Shortcuts are never
required edges, so a required edge is only given up inside a cycle of required
edges of the input.

- `DepFiles.Edge` are the edges of the input and the re-attached ones, and
  `PathWithin` the paths over edges up to a weight.
- `Weighed` is the invariant: the lines of the directory are such edges, an edge
  of the input that has gone lies on a cycle in which it is a weakest one, and a
  back-up knows the way from the call that returned to the start of its cycle.
- `sacrificesWeakest_of_slipFree`: the end of each edge is printed first, or the
  edge is a weakest one of such a cycle.

The slips of the pass are left out (`slipFree`): a deletion that takes other
lines, an edge given to nobody, a clean-up that takes a line that was kept. The
lines of weights carry the proof: they say how weak the edges on the path of the
callers are (`Waits.path_down`), and the value of a back-up is the largest of
them.
-/

namespace Jhalfs

open Machine

/-- In some state of the run, the edge `e` is exchanged and given to `p`. -/
def DepFiles.Reattached (G : DepFiles) (p : Id) (e : Entry) : Prop :=
  ∃ c fr cs, G.Reaches c ∧ c.ctl = .ret e.prio.val ∧ c.callers = (fr, e) :: cs ∧
    c.parentNode = [p]

/-- The edges of the input and the re-attached ones: the graph in which the pass looks
for its cycles. -/
def DepFiles.Edge (G : DepFiles) (n : Id) (e : Entry) : Prop := e ∈ G.dep n ∨ G.Reattached n e

/-- A path of edges of weight at most `w`. -/
def PathWithin (edge : Id → Entry → Prop) (w : Nat) : Id → Id → Prop :=
  Relation.ReflTransGen fun a b => ∃ e, edge a e ∧ e.id = b ∧ e.prio.val ≤ w

theorem PathWithin.single {edge : Id → Entry → Prop} {w : Nat} {n : Id} {e : Entry}
    (he : edge n e) (hw : e.prio.val ≤ w) : PathWithin edge w n e.id :=
  Relation.ReflTransGen.single ⟨e, he, rfl, hw⟩

/-- `sed "/$id/d"` on the file deletes only lines equal to the entry. -/
def deletesEqual (d : Dir) (file : Id) (e : Entry) : Bool :=
  (d.dep file).all fun x => !x.contains e.id || x == e

/-- The next step makes none of the slips: it keeps first, it loses no edge, and the
lines that it deletes are equal to the one that it removes. -/
def slipFree (c : Config) : Bool :=
  keepsFirst c && losesNothing c &&
    match edgeRemoved c with
    | some (file, e) => deletesEqual c.dir file e
    | none => true

theorem slipFree_keepsFirst {c : Config} (h : slipFree c = true) : keepsFirst c = true := by
  rw [slipFree, Bool.and_eq_true, Bool.and_eq_true] at h
  exact h.1.1

theorem slipFree_losesNothing {c : Config} (h : slipFree c = true) : losesNothing c = true := by
  rw [slipFree, Bool.and_eq_true, Bool.and_eq_true] at h
  exact h.1.2

/-- A line that goes is the removed edge itself. -/
theorem slipFree_deletes {c : Config} (h : slipFree c = true) {file : Id} {e : Entry}
    (hremoved : edgeRemoved c = some (file, e)) {x : Entry} (hx : x ∈ c.dir.dep file) :
    x ∈ (c.dir.deleteDep file e.id).dep file ∨ x = e := by
  rw [slipFree, Bool.and_eq_true, hremoved] at h
  have := List.all_eq_true.mp h.2 x hx
  rw [deleteDep_dep_self, List.mem_filter]
  by_cases hcontains : x.contains e.id = true
  · exact Or.inr (by simpa [hcontains] using this)
  · exact Or.inl ⟨hx, by simpa using hcontains⟩

/-- The lines of the directory are edges, an edge of the input that has gone
lies on a cycle in which it is a weakest edge, and a back-up knows the way from
the call that returned to the start of its cycle. -/
structure Weighed (G : DepFiles) (c : Config) : Prop where
  lines : ∀ n, ∀ e ∈ c.dir.dep n, G.Edge n e
  entries : ∀ n t, c.dir.tree n = some t → ∀ e ∈ t.entries, G.Edge n e
  gone : ∀ n, ∀ e ∈ G.dep n, e ∈ c.dir.dep n ∨ PathWithin G.Edge e.prio.val e.id n
  back : ∀ p2, c.ctl = .ret p2 → p2 ≠ 0 → 2 ≤ p2 ∧ ∃ m s, BackingUp c p2 m ∧
    c.dir.linkOf s = some ((calleeLink c.callers).take m) ∧
      PathWithin G.Edge p2 (calleeFile c.callers) s

section Weights

variable {G : DepFiles} {strict : Prop} {c : Config} {fr : Frame} {e : Entry}
  {cs : List (Frame × Entry)}

/-- The way down the path of the callers, by edges no weaker than the line of
weights says. -/
theorem Waits.path_down {d : Dir} (hw : Waits d cs) (hd : DirOk G d)
    (hentries : ∀ n t, d.tree n = some t → ∀ e ∈ t.entries, G.Edge n e) {m w : Nat} {s : Id}
    (hm : 1 ≤ m) (hs : d.linkOf s = some ((calleeLink cs).take m))
    (hle : ∀ v ∈ (calleePrio cs).drop m, v ≤ w) : PathWithin G.Edge w s (calleeFile cs) := by
  induction cs with
  | nil =>
    have hroot : s = rootId := by
      refine hd.linked.linkOf_inj hs ?_
      rw [hd.root, List.take_of_length_le hm]
      rfl
    rw [hroot]
    exact Relation.ReflTransGen.refl
  | cons x cs ih =>
    obtain ⟨hpath, ⟨t, T, hT⟩, hrest⟩ := hw
    have hrlen : x.1.rootlink.length = cs.length + 1 := hpath.length_rootlink hrest
    have hplen : x.1.priolink.length = cs.length + 1 := hpath.length_priolink hrest
    -- the cycle starts further up, or at the callee itself
    by_cases hlast : m ≤ cs.length + 1
    · have hs' : d.linkOf s = some ((calleeLink cs).take m) := by
        rw [hs, calleeLink, List.take_append_of_le_length (by omega), hpath.rootlink]
      have hdrop : (calleePrio (x :: cs)).drop m = (calleePrio cs).drop m ++ [x.2.prio.val] := by
        rw [calleePrio, List.drop_append_of_le_length (by omega), hpath.priolink]
      rw [hdrop] at hle
      have hup := ih hrest hs' fun v hv => hle v (List.mem_append_left _ hv)
      have hmem : x.2 ∈ t.entries :=
        hT.at_entry.subset (List.mem_append_right _ List.mem_cons_self)
      have hedge := hentries _ t hT.tree x.2 hmem
      rw [hpath.file] at hedge
      exact hup.tail ⟨x.2, hedge, rfl, hle _ (List.mem_append_right _ List.mem_cons_self)⟩
    · have hcallee : s = x.2.id := by
        refine hd.linked.linkOf_inj hs ?_
        rw [hT.callee, List.take_of_length_le]
        · rfl
        · rw [calleeLink, List.length_append, List.length_singleton]
          omega
      rw [hcallee]
      exact Relation.ReflTransGen.refl

/-- The moves that leave the `.dep` files alone and do not back up. -/
theorem Weighed.of_dep (h : Weighed G c) {c' : Config} (hdep : c'.dir.dep = c.dir.dep)
    (hentries : ∀ n t, c'.dir.tree n = some t → ∀ x ∈ t.entries, G.Edge n x)
    (hctl : ∀ p2, c'.ctl = .ret p2 → p2 = 0) : Weighed G c' where
  lines n x hx := h.lines n x (hdep ▸ hx)
  entries := hentries
  gone n x hx := by
    rw [hdep]
    exact h.gone n x hx
  back p2 hp2 h0 := absurd (hctl p2 hp2) h0

/-- A new file holds lines of its `.dep` file. -/
theorem Weighed.entries_addChild (h : Weighed G c) (n : Id) (t : TreeFile)
    (ht : (c.dir.addChild fr e).tree n = some t) (x : Entry) (hx : x ∈ t.entries) :
    G.Edge n x := by
  rcases cases_addChild_tree ht with ht | ⟨rfl, hentries⟩
  · exact h.entries n t ht x hx
  · exact h.lines _ x (hentries ▸ hx)

theorem Weighed.prune (h : Weighed G c) (hinv : Inv G strict c) {other : TreeFile}
    (hslip : slipFree c = true) (hctl : c.ctl = .run fr)
    (he : (c.dir.entriesOf fr.file)[fr.count]? = some e)
    (hother : c.dir.tree e.id = some other) (hne : other.link ≠ [])
    (hcirc : other.link <+: fr.rootlink)
    (hp : lowestPriority other.link.length fr.rootlink.length fr.priolink ≤ e.prio.val) :
    Weighed G
      { c with dir := c.dir.deleteDep fr.file e.id, ctl := .run (fr.next.remove e) } := by
  obtain ⟨hpath, t, T, hrun⟩ := hinv.running hctl
  have hremoved := edgeRemoved_prune hctl he hother hne hcirc hp
  have htake : other.link = (calleeLink c.callers).take other.link.length := by
    rw [← hpath.rootlink]
    exact List.prefix_iff_eq_take.mp hcirc
  -- the edges from the start of the cycle down to the frame are no weaker
  have hhigh : ∀ v ∈ (calleePrio c.callers).drop other.link.length, v ≤ e.prio.val := by
    intro v hv
    refine le_trans ?_ hp
    rw [← hpath.priolink] at hv
    rw [lowestPriority, List.take_of_length_le]
    · exact (le_foldl_max _ 0).2.1 v hv
    · rw [hpath.priolink, hpath.rootlink, length_calleePrio hinv.waiting,
        length_calleeLink hinv.waiting]
  have hcycle : PathWithin G.Edge e.prio.val e.id fr.file := by
    rw [hpath.file]
    refine hinv.waiting.path_down hinv.dir h.entries (List.length_pos_iff.mpr hne) ?_ hhigh
    rw [linkOf_of_tree hother, ← htake]
  refine ⟨fun n x hx => h.lines n x (mem_of_mem_deleteDep hx), h.entries, fun n x hx => ?_,
    fun p2 hp2 => by cases hp2⟩
  refine (h.gone n x hx).elim (fun hxd => ?_) Or.inr
  by_cases hn : n = fr.file
  · subst hn
    rcases slipFree_deletes hslip hremoved hxd with hkept | rfl
    · exact Or.inl hkept
    · exact Or.inr hcycle
  · left
    show x ∈ (c.dir.deleteDep fr.file e.id).dep n
    rw [deleteDep_dep_of_ne hn]
    exact hxd

theorem Weighed.backUp (h : Weighed G c) (hinv : Inv G strict c) {other : TreeFile}
    (hctl : c.ctl = .run fr) (he : (c.dir.entriesOf fr.file)[fr.count]? = some e)
    (hother : c.dir.tree e.id = some other) (hcirc : other.link <+: fr.rootlink)
    (hp : e.prio.val < lowestPriority other.link.length fr.rootlink.length fr.priolink) :
    Weighed G (c.backUp fr other) := by
  obtain ⟨hpath, t, T, hrun⟩ := hinv.running hctl
  refine ⟨h.lines, h.entries, h.gone, fun p2 hp2 h0 => ?_⟩
  cases hp2
  have hpos := e.prio.pos
  refine ⟨by omega, other.link.length, e.id, hinv.starts_backUp hctl hother hcirc h0, ?_, ?_⟩
  · show c.dir.linkOf e.id = some ((calleeLink c.callers).take _)
    rw [linkOf_of_tree hother, ← hpath.rootlink, ← List.prefix_iff_eq_take.mp hcirc]
  · show PathWithin G.Edge _ (calleeFile c.callers) e.id
    rw [← hpath.file]
    refine PathWithin.single (h.entries _ t hrun.tree e ?_) (Nat.le_of_lt hp)
    exact (hrun.next_entry he).2.2.2

theorem Weighed.popUp (h : Weighed G c) (hinv : Inv G strict c) {p2 : Nat}
    (hctl : c.ctl = .ret p2) (h0 : p2 ≠ 0) (hne : p2 ≠ e.prio.val)
    (hcs : c.callers = (fr, e) :: cs) : Weighed G { c with callers := cs } := by
  refine ⟨h.lines, h.entries, h.gone, fun q hq _ => ?_⟩
  have hq' : c.ctl = .ret q := hq
  rw [hctl] at hq'
  cases hq'
  obtain ⟨h2, m, s, hm, hs, hway⟩ := h.back p2 hctl h0
  have hw := hinv.waits hcs
  have hm' := hm.popUp hcs hw hne
  obtain ⟨hpath, ⟨t, T, hT⟩, hrest⟩ := hinv.waits hcs
  have hinner := hm'.inner
  have hplen : fr.priolink.length = cs.length + 1 := hpath.length_priolink hrest
  have hrlen : fr.rootlink.length = cs.length + 1 := hpath.length_rootlink hrest
  refine ⟨h2, m, s, hm', ?_, ?_⟩
  · show c.dir.linkOf s = some ((calleeLink cs).take m)
    rw [hs, hcs, calleeLink, List.take_append_of_le_length, hpath.rootlink]
    rw [hrlen]
    exact Nat.le_succ_of_le hinner
  · show PathWithin G.Edge p2 (calleeFile cs) s
    have hmem : e ∈ t.entries :=
      hT.at_entry.subset (List.mem_append_right _ List.mem_cons_self)
    have hle : e.prio.val ≤ p2 := by
      refine hm.highest _ ?_
      rw [hcs, calleePrio, List.drop_append_of_le_length]
      · exact List.mem_append_right _ List.mem_cons_self
      · rw [hplen]
        exact Nat.le_succ_of_le hinner
    have hedge := h.entries _ t hT.tree e hmem
    rw [hpath.file] at hedge
    rw [hcs] at hway
    exact (PathWithin.single hedge hle).trans hway

theorem Weighed.exchange (h : Weighed G c) (hinv : Inv G strict c) (hreach : G.Reaches c)
    (hslip : slipFree c = true) (hctl : c.ctl = .ret e.prio.val)
    (hcs : c.callers = (fr, e) :: cs) :
    Weighed G
      { c with
        dir := Jhalfs.exchange c.dir c.parentNode fr e
        ctl := .run (fr.remove e)
        callers := cs } := by
  have h0 : e.prio.val ≠ 0 := Nat.pos_iff_ne_zero.mp e.prio.pos
  have hremoved := edgeRemoved_exchange hctl hcs
  obtain ⟨p, hp⟩ := losesNothing_parent (slipFree_losesNothing hslip) hremoved hctl
  have hre : G.Edge p e := Or.inr ⟨c, fr, cs, hreach, hctl, hcs, hp⟩
  obtain ⟨-, m, s, hm, hs, hway⟩ := h.back _ hctl h0
  obtain ⟨hpath, ⟨t, T, hT⟩, hrest⟩ := hinv.waits hcs
  have hinner := hm.inner
  rw [hcs, List.length_cons] at hinner
  have hplen : fr.priolink.length = cs.length + 1 := hpath.length_priolink hrest
  have hrlen : fr.rootlink.length = cs.length + 1 := hpath.length_rootlink hrest
  -- up to the start of the cycle, and down again to the frame
  have hcycle : PathWithin G.Edge e.prio.val e.id fr.file := by
    rw [hcs] at hway hs
    refine hway.trans ?_
    rw [hpath.file]
    refine hrest.path_down hinv.dir h.entries hm.start ?_ fun v hv => hm.highest v ?_
    · rw [hs, calleeLink, List.take_append_of_le_length (by rwa [hrlen]), hpath.rootlink]
    · rw [hcs, calleePrio, List.drop_append_of_le_length (by rwa [hplen]), hpath.priolink]
      exact List.mem_append_left _ hv
  have hexch : Jhalfs.exchange c.dir c.parentNode fr e = (c.dir.detach fr e).appendLine p e := by
    rcases hinv.exchange_eq hctl h0 hcs with ⟨hno, -⟩ | ⟨x, -, hx, heq⟩
    · exact absurd hp (hno p)
    · rw [hp] at hx
      cases hx
      exact heq
  rw [hexch]
  -- the one new line is the edge of the parent; what goes is on the cycle or still a line
  refine ⟨fun n x hx => ?_, fun n t' ht' x hx => ?_, fun n x hx => ?_, fun q hq => by cases hq⟩
  · rcases cases_appendLine_dep hx with hx | ⟨rfl, rfl⟩
    · exact h.lines n x (mem_of_mem_deleteDep hx)
    · exact hre
  · obtain ⟨f, hf, hentries⟩ := cases_appendLine_tree ht'
    rcases hentries x hx with hx | ⟨rfl, rfl⟩
    · exact h.entries n f (detach_tree.mp hf).1 x hx
    · exact hre
  · have hgrow : ∀ z, z ∈ (c.dir.detach fr e).dep n →
        z ∈ ((c.dir.detach fr e).appendLine p e).dep n := by
      intro z hz
      by_cases hn : n = p
      · subst hn
        rw [appendLine_dep_self]
        exact List.mem_append_left _ hz
      · rwa [appendLine_dep_of_ne hn]
    refine (h.gone n x hx).elim (fun hxd => ?_) Or.inr
    by_cases hn : n = fr.file
    · subst hn
      rcases slipFree_deletes hslip hremoved hxd with hkept | rfl
      · exact Or.inl (hgrow x hkept)
      · exact Or.inr hcycle
    · refine Or.inl (hgrow x ?_)
      rw [detach_dep_of_ne hn]
      exact hxd

theorem Weighed.step (h : Weighed G c) (hinv : Inv G strict c) (hreach : G.Reaches c)
    (hslip : slipFree c = true) {c' : Config} (hstep : generateDependencyTree c = some c') :
    Weighed G c' := by
  cases move_of_step hstep with
  | finish fr hctl hend =>
    refine h.of_dep (cleanTree_dep fr) (fun n t ht x hx => ?_) fun p2 hp2 => by cases hp2; rfl
    obtain ⟨f, hf, hsub⟩ := cleanTree_tree ht
    exact h.entries n f hf x (hsub.subset hx)
  | quit fr e other hctl he hother hnil =>
    exact absurd hnil (hinv.dir.linked.nonempty _ other hother)
  | prune fr e other hctl he hother hnil hcirc hp =>
    exact h.prune hinv hslip hctl he hother hnil hcirc hp
  | backUp fr e other hctl he hother hnil hcirc hp => exact h.backUp hinv hctl he hother hcirc hp
  | skip fr e other hctl he hother hnil hcirc =>
    exact h.of_dep rfl h.entries fun p2 hp2 => by cases hp2
  | call fr e hctl he hnew hdep =>
    exact h.of_dep rfl h.entries_addChild fun p2 hp2 => by cases hp2
  | leaf fr e hctl he hnew hdep =>
    exact h.of_dep rfl h.entries_addChild fun p2 hp2 => by cases hp2
  | resume fr e cs hctl hcs => exact h.of_dep rfl h.entries fun p2 hp2 => by cases hp2
  | exchange fr e cs p2 hctl h0 hp hcs =>
    subst hp
    exact h.exchange hinv hreach hslip hctl hcs
  | popUp fr e cs p2 hctl h0 hp hcs => exact h.popUp hinv hctl h0 hp hcs

end Weights

variable {G : DepFiles}

theorem Weighed.start (G : DepFiles) : Weighed G G.start where
  lines n e he := Or.inl he
  entries n t ht e he := by
    obtain ⟨rfl, rfl⟩ := start_tree ht
    exact Or.inl he
  gone n e he := Or.inl he
  back p2 hp2 := by cases hp2

theorem Weighed.of_reaches (hslip : ∀ c, G.Reaches c → slipFree c = true) {c : Config}
    (h : G.Reaches c) : Weighed G c := by
  have hboth : Weighed G c ∧ Inv G False c := by
    refine Steps.invariant_guarded (P := fun s => Weighed G s ∧ Inv G False s)
      (G := G.Reaches) (fun s t hs hg hst => ?_) h ⟨Weighed.start G, Inv.start G False⟩
      fun s hs => hs
    exact ⟨hs.1.step hs.2 hg (hslip s hg) hst, hs.2.step (fun hf => hf.elim) hst⟩
  exact hboth.1

/-- A re-attached edge is never a required one. -/
theorem DepFiles.Reattached.two_le {p : Id} {e : Entry}
    (hslip : ∀ c, G.Reaches c → slipFree c = true) (h : G.Reattached p e) : 2 ≤ e.prio.val := by
  obtain ⟨c, fr, cs, hc, hctl, -, -⟩ := h
  exact ((Weighed.of_reaches hslip hc).back _ hctl (Nat.pos_iff_ne_zero.mp e.prio.pos)).1

/-- A path of required edges is one of the input. -/
theorem PathWithin.of_required (hslip : ∀ c, G.Reaches c → slipFree c = true) {a b : Id}
    (h : PathWithin G.Edge 1 a b) : PathWithin (fun n x => x ∈ G.dep n) 1 a b := by
  refine Relation.ReflTransGen.mono ?_ _ _ h
  rintro n m ⟨x, hx, rfl, hle⟩
  refine ⟨x, hx.resolve_right fun hre => ?_, rfl, hle⟩
  have := hre.two_le hslip
  omega

/-- What the pass guarantees for the edges of the input: the end of an edge is
printed first, or the edge is a weakest one of a cycle of the input edges and the
re-attached ones. For a required edge the cycle is one of required edges of the
input. -/
def DepFiles.SacrificesWeakest (G : DepFiles) : Prop :=
  ∀ d, G.Returns d → ∃ out, d.list = some out ∧ ∀ a ∈ G.pkgs, ∀ e ∈ G.dep a,
    [e.id, a].Sublist out ∨
      PathWithin G.Edge e.prio.val e.id a ∧
        (e.prio.val = 1 → PathWithin (fun n x => x ∈ G.dep n) 1 e.id a)

/-- **Cycle breaking only sacrifices weakest edges**, in a run without slips. An edge that is
given up lies on a cycle of edges that are no weaker; with exchanges the cycle may use an edge
that an exchange has re-attached. -/
theorem sacrificesWeakest_of_slipFree (G : DepFiles) (hreach : G.AllReachable)
    (hslip : ∀ c, G.Reaches c → slipFree c = true) : G.SacrificesWeakest := by
  rintro d ⟨c, hc, hctl, hcs, rfl⟩
  have hinv : Inv G True c :=
    Inv.of_reaches (fun _ s hs => slipFree_keepsFirst (hslip s hs)) hc
  have hfin := hinv.finished hctl hcs
  have hcov := Covered.of_reaches (fun s hs => slipFree_losesNothing (hslip s hs)) hc
  obtain ⟨out, hout, -, hmem, horder⟩ := hfin.list
  refine ⟨out, hout, fun a ha e he => ?_⟩
  rcases (Weighed.of_reaches hslip hc).gone a e he with hleft | hcycle
  · have haout : a ∈ out := (hmem a).mpr ((hcov.linkOf_iff hinv hreach hctl hcs a).mpr ha)
    exact Or.inl (hfin.sublist_of_mem_dep hmem (horder trivial) haout hleft)
  · refine Or.inr ⟨hcycle, fun hone => ?_⟩
    rw [hone] at hcycle
    exact hcycle.of_required hslip

theorem twoCycle_sacrificesWeakest : twoCycle.SacrificesWeakest :=
  sacrificesWeakest_of_slipFree twoCycle
    (fun n hn => DepFiles.dependsOn_of_mem_within (k := 3) (by revert n hn; decide))
    fun _ hc => allFor_sound (n := 40) (by decide +kernel) hc

/-- The law on the graph of the input alone: no edge of the cycle is one that an exchange has
re-attached. -/
def DepFiles.SacrificesWeakestOfInput (G : DepFiles) : Prop :=
  ∀ d, G.Returns d → ∃ out, d.list = some out ∧ ∀ a ∈ G.pkgs, ∀ e ∈ G.dep a,
    [e.id, a].Sublist out ∨ PathWithin (fun n x => x ∈ G.dep n) e.prio.val e.id a

section

open Sample

/-- The recommended edge from `x` to `y` is exchanged for one from `w`, which is
stronger than the optional edge from `w` to `x`. -/
def shortcut : DepFiles :=
  .ofTable [w, x, y]
    [(rootId, [required w]), (w, [optional x]), (x, [recommended y]),
      (y, [required x, recommended w])]
    (by decide +kernel)

/-- The recommended edge from `y` to `w` then closes a cycle with the shortcut and
is pruned, though its only cycle in the input has an optional edge. -/
theorem shortcut_not_weakestOfInput :
    shortcut.AllReachable ∧ (∀ c, shortcut.Reaches c → slipFree c = true) ∧
      ¬ shortcut.SacrificesWeakestOfInput := by
  refine ⟨fun n hn => ?_, fun c hc => ?_, fun h => ?_⟩
  · exact DepFiles.dependsOn_of_mem_within (k := 3) (by revert n hn; decide)
  · exact allFor_sound (n := 40) (by decide +kernel) hc
  · obtain ⟨out, hout, hlaw⟩ := h (runFor generateDependencyTree 40 shortcut.start).dir
      ⟨_, steps_runFor 40 _, by decide +kernel, by decide +kernel, rfl⟩
    have hlist : (runFor generateDependencyTree 40 shortcut.start).dir.list =
        some [x, y, w] := by decide +kernel
    rw [hlist] at hout
    cases hout
    rcases hlaw y (by decide) (recommended w) (by decide) with hsub | hpath
    · revert hsub
      decide
    · -- `w` has no edge of weight 2 or less
      rcases Relation.ReflTransGen.cases_head hpath with heq | ⟨n, ⟨e, he, -, hle⟩, -⟩
      · revert heq
        decide
      · have he' : e ∈ [optional x] := he
        rw [List.mem_singleton.mp he'] at hle
        revert hle
        decide

end

end Jhalfs
