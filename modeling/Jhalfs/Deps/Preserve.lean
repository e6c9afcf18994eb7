import Jhalfs.Deps.Frames

/-!
# Every step keeps the invariant

One lemma for each move of a frame that runs: `Inv.prune`, `Inv.skip`,
`Inv.leaf`, `Inv.call`, `Inv.finish` and `Inv.backUp`. The moves that hand a
return value to a caller are in the next file, and `Inv.step` puts all of them
together.

Only the clean-up of a frame uses the guard of the strict invariant
(`keepsFirst`). It deletes the last lines of the recorded names, and these must
not be lines that the frame has kept: then the file lists the kept entries in
their order afterwards (`Running.cleanUp_spec`). `keepsFirst` is a test on the
state before the step, and says nothing of any other step.

A back-up begins with the loop over the line of weights. It finds the largest
weight on the path below the start of the cycle (`le_foldl_max`), so the value
is met there and exceeded nowhere, which is what `BackingUp` says of it
(`Inv.starts_backUp`).
-/

namespace Jhalfs

open Position

variable {G : DepFiles} {strict : Prop}

/-- Each line of the frame's file that it kept is the first line of its name. Which
lines it kept is read off the links: the node of a kept line is at its number. -/
def keptLinesFirst (d : Dir) (fr : Frame) : Bool :=
  (List.range (d.entriesOf fr.file).length).all fun i =>
    match (d.entriesOf fr.file)[i]? with
    | some e =>
      d.linkOf e.id != some (fr.rootlink ++ [i + 1]) ||
        !(idsOf ((d.entriesOf fr.file).take i)).contains e.id
    | none => true

theorem keptLinesFirst_spec {d : Dir} {fr : Frame} (h : keptLinesFirst d fr = true) {i : Nat}
    {e : Entry} (he : (d.entriesOf fr.file)[i]? = some e)
    (hlink : d.linkOf e.id = some (fr.rootlink ++ [i + 1])) :
    e.id ∉ idsOf ((d.entriesOf fr.file).take i) := by
  have hi := (List.getElem?_eq_some_iff.mp he).1
  have := List.all_eq_true.mp h i (List.mem_range.mpr hi)
  rw [he] at this
  simpa [hlink] using this

/-- If the step is the clean-up of a frame, the frame has kept no line after a
removed one of the same name. Of every other step nothing is asked. -/
def keepsFirst (c : Config) : Bool :=
  match c.ctl with
  | .run fr => ((c.dir.entriesOf fr.file)[fr.count]?).isSome || keptLinesFirst c.dir fr
  | _ => true

theorem keepsFirst_finish {c : Config} (h : keepsFirst c = true) {fr : Frame}
    (hctl : c.ctl = .run fr) (hend : (c.dir.entriesOf fr.file)[fr.count]? = none) :
    keptLinesFirst c.dir fr = true := by
  simpa [keepsFirst, hctl, hend] using h

/-! ## The directory stays in order -/

theorem Linked.congr {d d' : Dir} (h : Linked d) (htree : d'.tree = d.tree)
    (hnames : d'.names = d.names) : Linked d' where
  mem := by rw [htree, hnames]; exact h.mem
  nonempty := by rw [htree]; exact h.nonempty
  inj := by rw [htree]; exact h.inj
  parent := by rw [htree]; exact h.parent

/-- A file may change its lines as long as it lists its children. -/
theorem Linked.setTree {d : Dir} (h : Linked d) {x : Id} {f f' : TreeFile}
    (hx : d.tree x = some f) (hlink : f'.link = f.link)
    (hkids : ∀ n k, d.linkOf n = some (f.link ++ [k]) → n ∈ idsOf f'.entries) :
    Linked (d.setTree x f') := by
  have hsame : (d.setTree x f').linkOf = d.linkOf :=
    setTree_linkOf_same (by rw [linkOf_of_tree hx, hlink])
  refine ⟨fun n g hn => ?_, fun n g hn => ?_, fun m n g g' hm hn hgg => ?_, fun n g hn hroot => ?_⟩
  · by_cases hnx : n = x
    · rw [hnx]
      exact h.mem x f hx
    · rw [setTree_tree_of_ne hnx] at hn
      exact h.mem n g hn
  · by_cases hnx : n = x
    · subst hnx
      rw [setTree_tree_self] at hn
      cases hn
      rw [hlink]
      exact h.nonempty n f hx
    · rw [setTree_tree_of_ne hnx] at hn
      exact h.nonempty n g hn
  · have hm' := linkOf_of_tree hm
    have hn' := linkOf_of_tree hn
    rw [hsame] at hm' hn'
    rw [← hgg] at hn'
    exact h.linkOf_inj hm' hn'
  · have hn' := linkOf_of_tree hn
    rw [hsame] at hn'
    obtain ⟨g₀, hg₀, hlink₀⟩ := linkOf_eq_some.mp hn'
    obtain ⟨p, t, k, hp, hpl, hmem⟩ := h.parent n g₀ hg₀ hroot
    rw [hlink₀] at hpl
    -- the parent of a node may be the file that changed
    by_cases hpx : p = x
    · subst hpx
      rw [hx] at hp
      cases hp
      refine ⟨p, f', k, setTree_tree_self, by rw [hlink, hpl], hkids n k ?_⟩
      rw [hn', hpl]
    · exact ⟨p, t, k, by rw [setTree_tree_of_ne hpx]; exact hp, hpl, hmem⟩

namespace DirOk

variable {d : Dir}

theorem deleteDep (h : DirOk G d) (file id : Id) : DirOk G (d.deleteDep file id) where
  names := h.names
  dep n hn e he := h.dep n hn e (mem_of_mem_deleteDep he)
  entries := h.entries
  linked := h.linked.congr rfl rfl
  root := h.root

theorem eraseUnder (h : DirOk G d) {r : List Nat} (hr : ¬ r <+: [1]) :
    DirOk G (d.eraseUnder r) where
  names := h.names
  dep := h.dep
  entries n t hn := h.entries n t (eraseUnder_tree_eq_some.mp hn).1
  linked := h.linked.eraseUnder r
  root := eraseUnder_linkOf.mpr ⟨h.root, hr⟩

/-- A file may change its lines as long as it lists its children. -/
theorem setTree (h : DirOk G d) {x : Id} {f f' : TreeFile} (hx : d.tree x = some f)
    (hlink : f'.link = f.link)
    (hkids : ∀ n k, d.linkOf n = some (f.link ++ [k]) → n ∈ idsOf f'.entries)
    (hentries : ∀ e ∈ f'.entries, e.build = .b ∧ e.id ∈ d.names) :
    DirOk G (d.setTree x f') where
  names := h.names
  dep := h.dep
  entries n t hn := by
    by_cases hnx : n = x
    · subst hnx
      rw [setTree_tree_self] at hn
      cases hn
      exact hentries
    · rw [setTree_tree_of_ne hnx] at hn
      exact h.entries n t hn
  linked := h.linked.setTree hx hlink hkids
  root := by
    rw [setTree_linkOf_same (by rw [linkOf_of_tree hx, hlink])]
    exact h.root

theorem appendLine (h : DirOk G d) {x : Id} {f : TreeFile} (hx : d.tree x = some f) {e : Entry}
    (he : e.build = .b ∧ e.id ∈ d.names) : DirOk G (d.appendLine x e) := by
  have hset : (d.appendLine x e).tree =
      (d.setTree x { f with entries := f.entries ++ [e] }).tree := by
    rw [Dir.appendLine, hx]
    rfl
  have hold : DirOk G (d.setTree x { f with entries := f.entries ++ [e] }) := by
    refine h.setTree hx rfl (fun n k hn => ?_) fun e' he' => ?_
    · obtain ⟨g, hg, hgl⟩ := linkOf_eq_some.mp hn
      rw [idsOf_append]
      exact List.mem_append_left _ (h.linked.child_mem hx hg hgl)
    · rcases List.mem_append.mp he' with he' | he'
      · exact h.entries x f hx e' he'
      · rw [List.mem_singleton.mp he']
        exact he
  refine ⟨h.names, fun n hn e' he' => ?_, ?_, hold.linked.congr hset rfl, ?_⟩
  · by_cases hnx : n = x
    · subst hnx
      rw [appendLine_dep_self] at he'
      rcases List.mem_append.mp he' with he' | he'
      · exact h.dep n hn e' he'
      · rw [List.mem_singleton.mp he']
        exact he
    · rw [appendLine_dep_of_ne hnx] at he'
      exact h.dep n hn e' he'
  · rw [hset]
    exact hold.entries
  · rw [appendLine_linkOf]
    exact h.root

theorem addChild (h : DirOk G d) {fr : Frame} {e : Entry} {cs : List (Frame × Entry)}
    {t : TreeFile} {T : List (Entry × Bool)} (hrun : Running d fr cs t T)
    (hnew : d.tree e.id = none) (he : (d.entriesOf fr.file)[fr.count]? = some e) :
    DirOk G (d.addChild fr e) := by
  have hmem : e.id ∈ d.names :=
    (h.entries _ t hrun.tree e (hrun.next_entry he).2.2.2).2
  refine ⟨h.names, h.dep, fun n f hn => ?_, hrun.linked_addChild h.linked hmem hnew he,
    (addChild_linkOf hnew).mpr (Or.inr h.root)⟩
  by_cases hne : n = e.id
  · subst hne
    rw [Dir.addChild, setTree_tree_self] at hn
    cases hn
    rw [childFile_entries]
    exact h.dep _ hmem
  · rw [Dir.addChild, setTree_tree_of_ne hne] at hn
    exact h.entries n f hn

end DirOk

/-! ## The moves of a frame that runs -/

section Run

variable {c : Config} {fr : Frame} {e : Entry}

theorem Inv.running (h : Inv G strict c) (hctl : c.ctl = .run fr) :
    OnPath fr c.callers ∧ ∃ t T, Running c.dir fr c.callers t T := by
  have := h.current
  rw [hctl] at this
  exact this

theorem Inv.file_ne_running (h : Inv G strict c) (hctl : c.ctl = .run fr) {y : Frame × Entry}
    (hy : y ∈ c.callers) : y.1.file ≠ fr.file := by
  obtain ⟨hpath, t, T, hrun⟩ := h.running hctl
  intro heq
  have hy' := h.waiting.linkOf hy
  rw [heq, linkOf_of_tree hrun.tree, hrun.link, hpath.rootlink] at hy'
  exact h.waiting.rootlink_ne hy (Option.some.inj hy').symm

/-- A settled node is not the one that runs. -/
theorem Settled.ne_running {d : Dir} {cs : List (Frame × Entry)} (h : Waits d cs)
    (hpath : OnPath fr cs) {l : List Nat}
    (hl : EarlierBranch cs l ∨ calleeLink cs <+: l ∧ l ≠ calleeLink cs) : l ≠ fr.rootlink := by
  rw [hpath.rootlink]
  rcases hl with hl | ⟨-, hne⟩
  · rintro rfl
    exact hl.not_below h List.prefix_rfl
  · exact hne

theorem Inv.prune (h : Inv G strict c) (hctl : c.ctl = .run fr)
    (he : (c.dir.entriesOf fr.file)[fr.count]? = some e) :
    Inv G strict
      { c with dir := c.dir.deleteDep fr.file e.id, ctl := .run (fr.next.remove e) } := by
  obtain ⟨hpath, t, T, hrun⟩ := h.running hctl
  have hsame := @settled_run_iff c
    { c with dir := c.dir.deleteDep fr.file e.id, ctl := .run (fr.next.remove e) } _ _ hctl
    rfl rfl
  refine ⟨h.dir.deleteDep _ _, ?_, ⟨⟨hpath.file, hpath.rootlink, hpath.priolink⟩, t, _,
    hrun.remove he rfl fun x hx => ?_⟩, fun u tu hu hsettled => ?_⟩
  · refine h.waiting.mono (agreeOutside_of_eq deleteDep_linkOf) fun x hx => ?_
    exact grows_of_eq rfl (deleteDep_dep_of_ne (h.file_ne_running hctl hx))
  · obtain ⟨hxd, hne⟩ := id_ne_of_mem_deleteDep hx
    exact ⟨hxd, fun heq => absurd heq hne⟩
  · obtain ⟨hdeps, htidy⟩ := h.settled u tu hu (hsame.mp hsettled)
    refine ⟨fun x hx => ?_, htidy.congr rfl⟩
    obtain ⟨l, hl, hls, hbefore⟩ := hdeps x (mem_of_mem_deleteDep hx)
    exact ⟨l, hl, hsame.mpr hls, hbefore⟩

theorem Inv.skip (h : Inv G strict c) {other : TreeFile} (hctl : c.ctl = .run fr)
    (he : (c.dir.entriesOf fr.file)[fr.count]? = some e)
    (hother : c.dir.tree e.id = some other) (hcirc : ¬ other.link <+: fr.rootlink) :
    Inv G strict { c with ctl := .run (fr.next.remove e) } := by
  obtain ⟨hpath, t, T, hrun⟩ := h.running hctl
  have hsame := @settled_run_iff c { c with ctl := .run (fr.next.remove e) } _ _ hctl rfl rfl
  refine ⟨h.dir, h.waiting, ⟨⟨hpath.file, hpath.rootlink, hpath.priolink⟩, t, _,
    hrun.remove he rfl fun x hx => ⟨hx, fun heq => ?_⟩⟩, fun u tu hu hsettled => ?_⟩
  · -- the node seen is in a finished branch or below the frame
    refine ⟨other.link, by rw [heq]; exact linkOf_of_tree hother, ?_⟩
    rcases h.waiting.cases h.dir.linked h.dir.root (linkOf_of_tree hother) with
      hpre | ⟨y, hy, hly, -⟩ | hearly
    · rw [← hpath.rootlink] at hpre
      exact Or.inr ⟨hpre, fun heq => hcirc (heq ▸ List.prefix_rfl)⟩
    · rw [hpath.rootlink, hly] at hcirc
      exact absurd (h.waiting.rootlink_above hy) hcirc
    · exact Or.inl hearly
  · obtain ⟨hdeps, htidy⟩ := h.settled u tu hu (hsame.mp hsettled)
    refine ⟨fun x hx => ?_, htidy⟩
    obtain ⟨l, hl, hls, hbefore⟩ := hdeps x hx
    exact ⟨l, hl, hsame.mpr hls, hbefore⟩

theorem Inv.leaf (h : Inv G strict c) (hctl : c.ctl = .run fr)
    (he : (c.dir.entriesOf fr.file)[fr.count]? = some e)
    (hnew : c.dir.tree e.id = none) (hdep : c.dir.dep e.id = []) :
    Inv G strict { c with dir := c.dir.addChild fr e, ctl := .run fr.next } := by
  obtain ⟨hpath, t, T, hrun⟩ := h.running hctl
  have hsame := @settled_run_iff c
    { c with dir := c.dir.addChild fr e, ctl := .run fr.next } _ _ hctl rfl rfl
  have hagree := @addChild_agree _ fr _ hnew
  rw [hpath.rootlink] at hagree
  refine ⟨h.dir.addChild hrun hnew he,
    h.waiting.mono hagree fun x hx => addChild_grows hnew (h.waiting.linkOf hx),
    ⟨⟨hpath.file, hpath.rootlink, hpath.priolink⟩, t, T ++ [(e, true)], ?_⟩,
    fun u tu hu hsettled => ?_⟩
  · exact hrun.keep he hnew
  · by_cases hue : u = e.id
    · subst hue
      have htu : tu = childFile c.dir fr e := by
        have hu' : (c.dir.addChild fr e).tree e.id = some tu := hu
        rw [Dir.addChild, setTree_tree_self] at hu'
        exact (Option.some.inj hu').symm
      subst htu
      -- a leaf is settled at once: it waits for nothing and has no children
      refine ⟨fun x hx => ?_, [], ?_, ?_, ?_⟩
      · have hx' : x ∈ c.dir.dep e.id := hx
        rw [hdep] at hx'
        cases hx'
      · rw [childFile_entries, hdep]
        exact List.Perm.refl _
      · intro _
        rw [childFile_entries, hdep]
        rfl
      · rw [childFile_link]
        exact hrun.no_children h.dir.linked hnew
    · have hu' : c.dir.tree u = some tu := by
        rw [← hu]
        exact (setTree_tree_of_ne hue).symm
      obtain ⟨hdeps, htidy⟩ := h.settled u tu hu' (hsame.mp hsettled)
      refine ⟨fun x hx => ?_, htidy.addChild hnew ?_⟩
      · obtain ⟨l, hl, hls, hbefore⟩ := hdeps x hx
        exact ⟨l, (addChild_linkOf hnew).mpr (Or.inr hl), hsame.mpr hls, hbefore⟩
      · exact Settled.ne_running h.waiting hpath ((settled_run hctl).mp (hsame.mp hsettled))

/-- What has been settled when the frame calls. -/
theorem Running.settled_iff {d : Dir} {cs : List (Frame × Entry)} {t : TreeFile}
    {T : List (Entry × Bool)} (hrun : Running d fr cs t T) (hd : Linked d)
    (hpath : OnPath fr cs) {n : Id} {l : List Nat} (hn : d.linkOf n = some l) :
    EarlierBranch ((fr.next, e) :: cs) l ↔
      EarlierBranch cs l ∨ calleeLink cs <+: l ∧ l ≠ calleeLink cs := by
  rw [earlierBranch_cons, ← hpath.rootlink, or_comm]
  refine or_congr_right ⟨?_, ?_⟩
  · rintro ⟨k, rest, -, rfl⟩
    refine ⟨List.prefix_append _ _, fun heq => ?_⟩
    simpa [Frame.next] using congrArg List.length heq
  · rintro ⟨hpre, hne⟩
    have hx : d.linkOf fr.file = some fr.rootlink :=
      linkOf_eq_some.mpr ⟨t, hrun.tree, hrun.link⟩
    obtain ⟨k, rest, hk, rfl⟩ := hrun.children.below hd hx hn hpre (Ne.symm hne)
    rw [hrun.count] at hk
    exact ⟨k, rest, Nat.lt_succ_of_le hk, rfl⟩

theorem Inv.call (h : Inv G strict c) (hctl : c.ctl = .run fr)
    (he : (c.dir.entriesOf fr.file)[fr.count]? = some e)
    (hnew : c.dir.tree e.id = none) (hdep : c.dir.dep e.id ≠ []) :
    Inv G strict
      { c with
        dir := c.dir.addChild fr e
        ctl := .run (Frame.open e.id (childFile c.dir fr e))
        callers := (fr.next, e) :: c.callers } := by
  obtain ⟨hpath, t, T, hrun⟩ := h.running hctl
  obtain ⟨-, hread, hdrop, -⟩ := hrun.next_entry he
  have hagree := @addChild_agree _ fr _ hnew
  rw [hpath.rootlink] at hagree
  have hfr : fr.file ≠ e.id := by
    intro heq
    rw [← heq, hrun.tree] at hnew
    cases hnew
  -- the frame waits at `e` with the turns it has made, and its file is as before
  have hwait : Waiting (c.dir.addChild fr e) fr.next e c.callers t T :=
    { tree := by
        rw [Dir.addChild]
        exact (setTree_tree_of_ne hfr).trans hrun.tree
      link := hrun.link
      priolink := hrun.priolink
      read := hrun.read
      removed := hrun.removed
      count := by
        rw [hrun.count]
        rfl
      at_entry := hread
      children := hrun.children_addChild hnew
      deps := by
        intro x hx
        rcases hrun.deps x hx with hunread | ⟨l, hl, hls⟩
        · rw [hdrop, idsOf_cons, List.mem_cons] at hunread
          rcases hunread with hxe | hunread
          · exact Or.inr (Or.inl hxe)
          · exact Or.inl hunread
        · refine Or.inr (Or.inr ⟨l, (addChild_linkOf hnew).mpr (Or.inr hl), ?_⟩)
          rw [hrun.settled_iff h.dir.linked hpath hl, ← hpath.rootlink]
          exact hls }
  have hwaits : Waits (c.dir.addChild fr e) ((fr.next, e) :: c.callers) :=
    ⟨⟨hpath.file, hpath.rootlink, hpath.priolink⟩, ⟨t, T, hwait⟩,
      h.waiting.mono hagree fun x hx => addChild_grows hnew (h.waiting.linkOf hx)⟩
  have hchild : (c.dir.addChild fr e).tree e.id = some (childFile c.dir fr e) :=
    setTree_tree_self
  refine ⟨h.dir.addChild hrun hnew he, hwaits,
    ⟨⟨rfl, childFile_link, childFile_priolink hdep⟩, childFile c.dir fr e, [], ?_⟩,
    fun u tu hu hsettled => ?_⟩
  · exact
      { tree := hchild
        link := rfl
        priolink := rfl
        read := List.nil_prefix
        removed := rfl
        count := rfl
        children := by
          show Children _ (childFile c.dir fr e).link []
          rw [childFile_link]
          exact hrun.no_children h.dir.linked hnew
        deps := by
          intro x hx
          refine Or.inl (mem_idsOf.mpr ⟨x, ?_, rfl⟩)
          show x ∈ (childFile c.dir fr e).entries.drop 0
          rw [childFile_entries]
          exact hx }
  -- the new child runs, so what is settled was settled before the call
  · have hue : u ≠ e.id := by
      rintro rfl
      rw [hchild] at hu
      cases hu
      have hpath' : OnPath (Frame.open e.id (childFile c.dir fr e)) ((fr.next, e) :: c.callers) :=
        ⟨rfl, childFile_link, childFile_priolink hdep⟩
      exact Settled.ne_running hwaits hpath' ((settled_run rfl).mp hsettled) rfl
    have hu' : c.dir.tree u = some tu := by
      rw [← hu]
      exact (setTree_tree_of_ne hue).symm
    have hold : Settled c tu.link := by
      rw [settled_run hctl]
      rcases (settled_run rfl).mp hsettled with hearly | ⟨hpre, -⟩
      · exact (hrun.settled_iff h.dir.linked hpath (linkOf_of_tree hu')).mp hearly
      · exact absurd hpre (hrun.fresh h.dir.linked (linkOf_of_tree hu'))
    obtain ⟨hdeps, htidy⟩ := h.settled u tu hu' hold
    refine ⟨fun x hx => ?_, htidy.addChild hnew ?_⟩
    · obtain ⟨l, hl, hls, hbefore⟩ := hdeps x hx
      refine ⟨l, (addChild_linkOf hnew).mpr (Or.inr hl), (settled_run rfl).mpr (Or.inl ?_), hbefore⟩
      exact (hrun.settled_iff h.dir.linked hpath hl).mpr ((settled_run hctl).mp hls)
    · exact Settled.ne_running h.waiting hpath ((settled_run hctl).mp hold)

/-- The frame has read its whole file. -/
theorem Running.at_end {d : Dir} {cs : List (Frame × Entry)} {t : TreeFile}
    {T : List (Entry × Bool)} (hrun : Running d fr cs t T)
    (hend : (d.entriesOf fr.file)[fr.count]? = none) :
    T.map Prod.fst = t.entries ∧ t.entries.drop fr.count = [] := by
  have hlen : t.entries.length ≤ fr.count := by
    rw [Dir.entriesOf, hrun.tree] at hend
    exact List.getElem?_eq_none_iff.mp hend
  refine ⟨hrun.read.eq_of_length_le ?_, List.drop_eq_nil_of_le hlen⟩
  rw [List.length_map, hrun.count]
  exact hlen

/-- When the kept lines are first, no line was kept after a removed one of its
name. -/
theorem Running.keptFirst {d : Dir} {cs : List (Frame × Entry)} {t : TreeFile}
    {T : List (Entry × Bool)} (hrun : Running d fr cs t T)
    (hend : (d.entriesOf fr.file)[fr.count]? = none) (hfirst : keptLinesFirst d fr = true) :
    KeptFirst T := by
  have hentries : d.entriesOf fr.file = T.map Prod.fst := by
    rw [(hrun.at_end hend).1, Dir.entriesOf, hrun.tree]
  refine List.pairwise_iff_getElem.mpr fun i j hi hj hij hdrop hkept hid => ?_
  have hget : (d.entriesOf fr.file)[j]? = some T[j].1 := by
    rw [hentries, List.getElem?_map, List.getElem?_eq_getElem hj]
    rfl
  have hlink : d.linkOf T[j].1.id = some (fr.rootlink ++ [j + 1]) := by
    refine (hrun.children _ _).mpr ⟨j, T[j].1, rfl, ?_, rfl⟩
    rw [List.getElem?_eq_getElem hj, ← hkept]
  refine keptLinesFirst_spec hfirst hget hlink (mem_idsOf.mpr ⟨T[i].1, ?_, hid⟩)
  rw [hentries, List.mem_take_iff_getElem]
  exact ⟨i, by rw [List.length_map]; omega, List.getElem_map _⟩

/-- What the clean-up leaves of the file. -/
theorem Running.cleanUp_spec {d : Dir} {cs : List (Frame × Entry)} {t : TreeFile}
    {T : List (Entry × Bool)} (hrun : Running d fr cs t T) (hd : DirOk G d)
    (hend : (d.entriesOf fr.file)[fr.count]? = none)
    (hfirst : strict → keptLinesFirst d fr = true) :
    ∃ es, cleanUp t fr.linesToRemove = { t with entries := es } ∧ es.Sublist t.entries ∧
      (idsOf es).Perm (idsOf (keptOf T)) ∧ (strict → es = keptOf T) := by
  have hT := (hrun.at_end hend).1
  have hb : ∀ x ∈ t.entries, x.build = .b := fun x hx => (hd.entries _ t hrun.tree x hx).1
  have hperm : (idsOf t.entries).Perm (fr.linesToRemove ++ idsOf (keptOf T)) := by
    rw [← hT, hrun.removed, ← idsOf_append]
    exact (perm_dropped_kept T).map Entry.id
  obtain ⟨es, hes, hsub, hids⟩ := cleanUp_perm hb hperm
  refine ⟨es, hes, hsub, hids, fun hs => ?_⟩
  have hids' : fr.linesToRemove.Perm (idsOf (droppedOf T)) := by rw [hrun.removed]
  have := cleanUp_eq hb hT hids' (hrun.keptFirst hend (hfirst hs))
  rw [hes] at this
  exact congrArg TreeFile.entries this

theorem Children.mem_kept {d : Dir} {l : List Nat} {T : List (Entry × Bool)}
    (h : Children d l T) {n : Id} {k : Nat} (hn : d.linkOf n = some (l ++ [k])) :
    n ∈ idsOf (keptOf T) := by
  obtain ⟨i, x, -, hi, rfl⟩ := (h n k).mp hn
  exact mem_idsOf.mpr ⟨x, mem_keptOf.mpr ⟨i, hi⟩, rfl⟩

theorem Inv.finish (h : Inv G strict c) (hguard : strict → keepsFirst c = true)
    (hctl : c.ctl = .run fr) (hend : (c.dir.entriesOf fr.file)[fr.count]? = none) :
    Inv G strict { c with dir := c.dir.cleanTree fr, ctl := .ret 0 } := by
  obtain ⟨hpath, t, T, hrun⟩ := h.running hctl
  obtain ⟨es, hes, hsub, hids, hstrict⟩ := hrun.cleanUp_spec h.dir hend fun hs =>
    keepsFirst_finish (hguard hs) hctl hend
  have hdir : c.dir.cleanTree fr = c.dir.setTree fr.file { t with entries := es } := by
    rw [Dir.cleanTree, hrun.tree]
    dsimp only
    rw [hes]
  rw [hdir]
  have hlink : (c.dir.setTree fr.file { t with entries := es }).linkOf = c.dir.linkOf :=
    setTree_linkOf_same (by rw [linkOf_of_tree hrun.tree])
  have hfile : c.dir.linkOf fr.file = some fr.rootlink :=
    linkOf_eq_some.mpr ⟨t, hrun.tree, hrun.link⟩
  -- the file keeps the names of its children, for which no line is removed
  refine ⟨?_, ?_, fun h0 => absurd rfl h0, fun u tu hu hsettled => ?_⟩
  · refine h.dir.setTree hrun.tree rfl (fun n k hn => ?_) fun x hx =>
      h.dir.entries _ t hrun.tree x (hsub.subset hx)
    rw [hrun.link] at hn
    exact hids.symm.subset (hrun.children.mem_kept hn)
  · refine h.waiting.mono (agreeOutside_of_eq hlink) fun x hx => ?_
    exact grows_of_eq (setTree_tree_of_ne (h.file_ne_running hctl hx)) rfl
  · have hret : ∀ {l}, Settled
        { c with dir := c.dir.setTree fr.file { t with entries := es }, ctl := .ret 0 } l ↔
          EarlierBranch c.callers l ∨ calleeLink c.callers <+: l := settled_ret_zero rfl
    by_cases hufr : u = fr.file
    · subst hufr
      have htu : tu = { t with entries := es } := by
        have hu' : (c.dir.setTree fr.file { t with entries := es }).tree fr.file = some tu := hu
        rw [setTree_tree_self] at hu'
        exact (Option.some.inj hu').symm
      subst htu
      -- the node of the frame is settled now: each line is read, so each dependency is in place
      refine ⟨fun x hx => ?_, T, hids, hstrict, fun n k => ?_⟩
      · rcases hrun.deps x hx with hunread | ⟨l, hl, hls⟩
        · rw [(hrun.at_end hend).2] at hunread
          cases hunread
        · refine ⟨l, by rw [hlink]; exact hl, ?_⟩
          rcases hls with hearly | ⟨hpre, hne⟩
          · refine ⟨hret.mpr (Or.inl hearly), Or.inr ?_⟩
            show LeftOf l t.link
            rw [hrun.link, hpath.rootlink]
            exact hearly.leftOf h.waiting
          · refine ⟨hret.mpr (Or.inr ?_), Or.inl ?_⟩
            · rw [← hpath.rootlink]
              exact hpre
            · show t.link <+: l ∧ t.link ≠ l
              rw [hrun.link]
              exact ⟨hpre, Ne.symm hne⟩
      · show _ = some (t.link ++ [k]) ↔ _
        rw [hlink, hrun.link]
        exact hrun.children n k
    · have hu' : c.dir.tree u = some tu := by
        rw [← hu]
        exact (setTree_tree_of_ne hufr).symm
      have hold : Settled c tu.link := by
        rw [settled_run hctl]
        refine (hret.mp hsettled).imp_right fun hpre => ⟨hpre, fun heq => hufr ?_⟩
        rw [← hpath.rootlink] at heq
        exact h.dir.linked.linkOf_inj (heq ▸ linkOf_of_tree hu') hfile
      obtain ⟨hdeps, htidy⟩ := h.settled u tu hu' hold
      refine ⟨fun x hx => ?_, htidy.congr hlink⟩
      obtain ⟨l, hl, hls, hbefore⟩ := hdeps x hx
      refine ⟨l, by rw [hlink]; exact hl, hret.mpr ?_, hbefore⟩
      exact ((settled_run hctl).mp hls).imp_right And.left

/-- The loop over the line of weights finds the largest of those it scans. -/
theorem le_foldl_max (ws : List Nat) (m : Nat) : m ≤ ws.foldl max m ∧
    (∀ w ∈ ws, w ≤ ws.foldl max m) ∧ (ws.foldl max m = m ∨ ws.foldl max m ∈ ws) := by
  induction ws generalizing m with
  | nil => exact ⟨Nat.le_refl m, fun w hw => absurd hw List.not_mem_nil, Or.inl rfl⟩
  | cons v ws ih =>
    obtain ⟨hle, hall, hmem⟩ := ih (max m v)
    rw [List.foldl_cons]
    refine ⟨le_trans (le_max_left _ _) hle, fun w hw => ?_, ?_⟩
    · rcases List.mem_cons.mp hw with rfl | hw
      · exact le_trans (le_max_right _ _) hle
      · exact hall w hw
    · rcases hmem with heq | hmem
      · rw [heq]
        rcases max_choice m v with hm | hv
        · exact Or.inl hm
        · rw [hv]
          exact Or.inr List.mem_cons_self
      · exact Or.inr (List.mem_cons_of_mem _ hmem)

/-- The state after a cycle with a weaker edge has been found: the file of the parent
is looked up, and the lowest priority on the way is returned. -/
def Config.backUp (c : Config) (fr : Frame) (other : TreeFile) : Config :=
  { c with
    parentNode := c.dir.findParent other.link.dropLast
    ctl := .ret (lowestPriority other.link.length fr.rootlink.length fr.priolink) }

/-- The value is the lowest priority on the path below the start of the cycle. -/
theorem Inv.starts_backUp (h : Inv G strict c) {other : TreeFile} (hctl : c.ctl = .run fr)
    (hother : c.dir.tree e.id = some other) (hcirc : other.link <+: fr.rootlink)
    (hne : lowestPriority other.link.length fr.rootlink.length fr.priolink ≠ 0) :
    BackingUp (c.backUp fr other)
      (lowestPriority other.link.length fr.rootlink.length fr.priolink) other.link.length := by
  obtain ⟨hpath, t, T, hrun⟩ := h.running hctl
  have hdepth : fr.rootlink.length = c.callers.length + 1 := hpath.length_rootlink h.waiting
  have hprio : fr.priolink.length = c.callers.length + 1 := hpath.length_priolink h.waiting
  -- the scan goes to the end of the line of weights
  have hp2 : lowestPriority other.link.length fr.rootlink.length fr.priolink =
      (fr.priolink.drop other.link.length).foldl max 0 := by
    rw [lowestPriority, hdepth, ← hprio, List.take_length]
  obtain ⟨-, hhigh, hatt⟩ := le_foldl_max (fr.priolink.drop other.link.length) 0
  rw [← hp2] at hhigh hatt
  have hatt' := hatt.resolve_left hne
  refine ⟨?_, ?_, ?_, ?_, ?_⟩
  · exact List.length_pos_iff.mpr (h.dir.linked.nonempty _ other hother)
  · have := List.length_pos_of_mem hatt'
    rw [List.length_drop, hprio] at this
    show other.link.length ≤ c.callers.length
    omega
  · show ∀ w ∈ (calleePrio c.callers).drop _, _
    rw [← hpath.priolink]
    exact hhigh
  · show _ ∈ (calleePrio c.callers).drop _
    rw [← hpath.priolink]
    exact hatt'
  · show c.dir.findParent _ = c.dir.findParent ((calleeLink c.callers).take _)
    obtain ⟨rest, hrest⟩ := hcirc
    rw [← hpath.rootlink, ← hrest, List.dropLast_eq_take,
      List.take_append_of_le_length (Nat.sub_le _ _)]

theorem Inv.backUp (h : Inv G strict c) {other : TreeFile} (hctl : c.ctl = .run fr)
    (hother : c.dir.tree e.id = some other) (hcirc : other.link <+: fr.rootlink)
    (hne : lowestPriority other.link.length fr.rootlink.length fr.priolink ≠ 0) :
    Inv G strict (c.backUp fr other) := by
  refine ⟨h.dir, h.waiting, fun _ => ⟨_, h.starts_backUp hctl hother hcirc hne⟩,
    fun u tu hu hsettled => ?_⟩
  -- on the way back only the branches before the path are settled
  have hearly := (settled_ret rfl hne).mp hsettled
  obtain ⟨hdeps, htidy⟩ := h.settled u tu hu ((settled_run hctl).mpr (Or.inl hearly))
  refine ⟨fun x hx => ?_, htidy⟩
  obtain ⟨l, hl, hls, hbefore⟩ := hdeps x hx
  refine ⟨l, hl, (settled_ret rfl hne).mpr ?_, hbefore⟩
  refine ((settled_run hctl).mp hls).resolve_right fun hbelow => ?_
  exact EarlierBranch.of_before h.waiting hearly hbefore hbelow.1

end Run

end Jhalfs
