import Jhalfs.Deps.Preserve

/-!
# Return values between the frames

The moves that hand a return value to a caller keep the invariant.

- `Inv.resume`: a call has returned 0. Its node becomes a child of the caller for
  good, and what lies below it is settled (`Waiting.settled_iff`).
- `Inv.popUp`: a caller that does not match hands the value on. A back-up is
  always met by a caller on its cycle: the value is attained on the path below
  the start of the cycle (`BackingUp.attained`), and a caller that does not match
  it leaves it attained further out (`BackingUp.popUp`).
- `Inv.exchange`: a caller whose edge has the value gives the edge away. The file
  that `grep` finds can only be that of a waiting caller further out
  (`BackingUp.parent_eq`), so nobody ever appends to a file that has been
  finished or erased (`Inv.exchange_eq`).

An exchange is split in two: the subtree of the entry is erased and its lines in
the frame's file are deleted (`Dir.detach`), and then the edge is given to the
parent, if one is found. `Exchanged` says what both parts together have changed:
the waiting callers further out keep their files, which may have gained the edge,
and all other files are those of the detached directory.
-/

namespace Jhalfs

open Position

variable {G : DepFiles} {strict : Prop}

section Ret

variable {c : Config} {fr : Frame} {e : Entry} {cs : List (Frame × Entry)}

theorem Inv.waits (h : Inv G strict c) (hcs : c.callers = (fr, e) :: cs) :
    Waits c.dir ((fr, e) :: cs) := hcs ▸ h.waiting

/-- The entry a frame waits for has its file at the frame's number. -/
theorem Waiting.callee {d : Dir} {t : TreeFile} {T : List (Entry × Bool)}
    (h : Waiting d fr e cs t T) :
    d.linkOf e.id = some (fr.rootlink ++ [fr.count]) := by
  refine (h.children e.id fr.count).mpr ⟨T.length, e, h.count.symm, ?_, rfl⟩
  exact List.getElem?_concat_length

/-- What is settled when a call has returned: what was settled while it ran, and all
that lies at and below its node. -/
theorem Waiting.settled_iff {d : Dir} {t : TreeFile} {T : List (Entry × Bool)}
    (h : Waiting d fr e cs t T) (hd : Linked d) {n : Id} {l : List Nat}
    (hn : d.linkOf n = some l) :
    (EarlierBranch cs l ∨ fr.rootlink <+: l ∧ l ≠ fr.rootlink) ↔
      EarlierBranch ((fr, e) :: cs) l ∨ fr.rootlink ++ [fr.count] <+: l := by
  rw [earlierBranch_cons]
  constructor
  · rintro (hearly | ⟨hpre, hne⟩)
    · exact Or.inl (Or.inr hearly)
    · have hx : d.linkOf fr.file = some fr.rootlink :=
        linkOf_eq_some.mpr ⟨t, h.tree, h.link⟩
      obtain ⟨k, rest, hk, rfl⟩ := h.children.below hd hx hn hpre (Ne.symm hne)
      rw [List.length_append, List.length_singleton, h.count] at hk
      by_cases hlast : k = fr.count
      · subst hlast
        exact Or.inr ⟨rest, by simp⟩
      · exact Or.inl (Or.inl ⟨k, rest, Nat.lt_of_le_of_ne hk hlast, rfl⟩)
  · rintro ((⟨k, rest, -, rfl⟩ | hearly) | hpre)
    · refine Or.inr ⟨List.prefix_append _ _, fun heq => ?_⟩
      simpa using congrArg List.length heq
    · exact Or.inl hearly
    · refine Or.inr ⟨(List.prefix_append _ _).trans hpre, ?_⟩
      rintro rfl
      exact absurd hpre.length_le (by simp)

/-- The call has returned 0: its node becomes a child for good. -/
theorem Waiting.keep {d : Dir} {t : TreeFile} {T : List (Entry × Bool)}
    (h : Waiting d fr e cs t T) :
    Running d fr cs t (T ++ [(e, true)]) where
  tree := h.tree
  link := h.link
  priolink := h.priolink
  read := by simpa using h.at_entry
  removed := by
    rw [h.removed]
    simp
  count := by
    rw [List.length_append, ← h.count]
    rfl
  children := h.children
  deps x hx := by
    rcases h.deps x hx with hunread | hxe | ⟨l, hl, hls⟩
    · exact Or.inl hunread
    · refine Or.inr ⟨_, by rw [hxe]; exact h.callee, Or.inr ⟨List.prefix_append _ _, fun heq => ?_⟩⟩
      simpa using congrArg List.length heq
    · refine Or.inr ⟨l, hl, ?_⟩
      rcases earlierBranch_cons.mp hls with ⟨k, rest, -, rfl⟩ | hearly
      · refine Or.inr ⟨List.prefix_append _ _, fun heq => ?_⟩
        simpa using congrArg List.length heq
      · exact Or.inl hearly

theorem Inv.resume (h : Inv G strict c) (hctl : c.ctl = .ret 0) (hcs : c.callers = (fr, e) :: cs) :
    Inv G strict { c with ctl := .run fr, callers := cs } := by
  obtain ⟨hpath, ⟨t, T, hT⟩, hrest⟩ := h.waits hcs
  have hold : ∀ {l}, Settled c l ↔
      EarlierBranch ((fr, e) :: cs) l ∨ fr.rootlink ++ [fr.count] <+: l := by
    intro l
    rw [settled_ret_zero hctl, hcs]
    rfl
  have hnew : ∀ {l}, Settled { c with ctl := .run fr, callers := cs } l ↔
      EarlierBranch cs l ∨ fr.rootlink <+: l ∧ l ≠ fr.rootlink := by
    intro l
    rw [hpath.rootlink]
    exact settled_run rfl
  refine ⟨h.dir, hrest,
    ⟨hpath, t, _, hT.keep⟩,
    fun u tu hu hsettled => ?_⟩
  have hsettled' : Settled c tu.link :=
    hold.mpr ((hT.settled_iff h.dir.linked (linkOf_of_tree hu)).mp (hnew.mp hsettled))
  obtain ⟨hdeps, htidy⟩ := h.settled u tu hu hsettled'
  refine ⟨fun x hx => ?_, htidy⟩
  obtain ⟨l, hl, hls, hbefore⟩ := hdeps x hx
  exact ⟨l, hl, hnew.mpr ((hT.settled_iff h.dir.linked hl).mpr (hold.mp hls)), hbefore⟩

/-! ## Backing up -/

theorem Inv.backingUp (h : Inv G strict c) {p2 : Nat} (hctl : c.ctl = .ret p2) (h0 : p2 ≠ 0) :
    ∃ m, BackingUp c p2 m := by
  have := h.current
  rw [hctl] at this
  exact this h0

/-- A caller that does not match leaves a back-up that some caller further out
matches. -/
theorem BackingUp.popUp {p2 m : Nat} (hb : BackingUp c p2 m) {d : Dir}
    (hcs : c.callers = (fr, e) :: cs) (hw : Waits d ((fr, e) :: cs))
    (hne : p2 ≠ e.prio.val) : BackingUp { c with callers := cs } p2 m := by
  obtain ⟨hpath, -, hrest⟩ := hw
  have hlen : fr.priolink.length = cs.length + 1 := hpath.length_priolink hrest
  have hrlen : fr.rootlink.length = cs.length + 1 := hpath.length_rootlink hrest
  have hm : m ≤ fr.priolink.length := by
    have := hb.inner
    rw [hcs, List.length_cons, ← hlen] at this
    exact this
  have hdrop : (calleePrio c.callers).drop m = (calleePrio cs).drop m ++ [e.prio.val] := by
    rw [hcs, calleePrio, List.drop_append_of_le_length hm, hpath.priolink]
  have hatt := hb.attained
  rw [hdrop, List.mem_append, List.mem_singleton] at hatt
  have hatt' := hatt.resolve_right hne
  have hm' : m ≤ cs.length := by
    have := List.length_pos_of_mem hatt'
    rw [List.length_drop, length_calleePrio hrest] at this
    omega
  refine ⟨hb.start, hm', fun w hw => ?_, hatt', ?_⟩
  · refine hb.highest w ?_
    rw [hdrop]
    exact List.mem_append_left _ hw
  · show c.parentNode = c.dir.findParent ((calleeLink cs).take (m - 1))
    rw [hb.parent, hcs, calleeLink, List.take_append_of_le_length, hpath.rootlink]
    rw [hrlen]
    omega

theorem Inv.popUp (h : Inv G strict c) {p2 : Nat} (hctl : c.ctl = .ret p2) (h0 : p2 ≠ 0)
    (hne : p2 ≠ e.prio.val) (hcs : c.callers = (fr, e) :: cs) :
    Inv G strict { c with callers := cs } := by
  obtain ⟨hpath, ⟨t, T, hT⟩, hrest⟩ := h.waits hcs
  have hctl' : { c with callers := cs }.ctl = .ret p2 := hctl
  refine ⟨h.dir, hrest, ?_, fun u tu hu hsettled => ?_⟩
  · rw [hctl']
    intro _
    obtain ⟨m, hm⟩ := h.backingUp hctl h0
    have hb := hm.popUp hcs (h.waits hcs) hne
    exact ⟨m, hb.start, hb.inner, hb.highest, hb.attained, hb.parent⟩
  · have hearly := (settled_ret hctl' h0).mp hsettled
    have hearly' : EarlierBranch c.callers tu.link := by
      rw [hcs, earlierBranch_cons]
      exact Or.inr hearly
    obtain ⟨hdeps, htidy⟩ := h.settled u tu hu ((settled_ret hctl h0).mpr hearly')
    refine ⟨fun x hx => ?_, htidy⟩
    obtain ⟨l, hl, hls, hbefore⟩ := hdeps x hx
    refine ⟨l, hl, (settled_ret hctl' h0).mpr ?_, hbefore⟩
    have hls' := (settled_ret hctl h0).mp hls
    rw [hcs, earlierBranch_cons] at hls'
    refine hls'.resolve_left ?_
    rintro ⟨k, rest, -, rfl⟩
    refine EarlierBranch.of_before hrest hearly hbefore ?_
    rw [← hpath.rootlink]
    exact List.prefix_append _ _

/-! ## The exchange -/

/-- The directory of an exchange before the edge is given to the parent: the
subtree of the entry is erased, and its lines in the frame's file. -/
def Dir.detach (d : Dir) (fr : Frame) (e : Entry) : Dir :=
  (d.eraseUnder (fr.rootlink ++ [fr.count])).deleteDep fr.file e.id

theorem detach_linkOf {d : Dir} {n : Id} {l : List Nat} :
    (d.detach fr e).linkOf n = some l ↔
      d.linkOf n = some l ∧ ¬ fr.rootlink ++ [fr.count] <+: l := by
  rw [Dir.detach, deleteDep_linkOf, eraseUnder_linkOf]

theorem detach_tree {d : Dir} {n : Id} {f : TreeFile} :
    (d.detach fr e).tree n = some f ↔
      d.tree n = some f ∧ ¬ fr.rootlink ++ [fr.count] <+: f.link := eraseUnder_tree_eq_some

theorem detach_dep_of_ne {d : Dir} {n : Id} (h : n ≠ fr.file) :
    (d.detach fr e).dep n = d.dep n := deleteDep_dep_of_ne h

/-- An empty pattern line is in no file. -/
theorem findParent_nil (d : Dir) : d.findParent [] = [] := by
  rw [Dir.findParent, List.filter_eq_nil_iff]
  intro n _
  cases d.tree n <;> simp [TreeFile.hasLine]

/-- The only file that `grep` finds is the parent: a waiting caller further
out. -/
theorem BackingUp.parent_eq {p2 m : Nat} (hb : BackingUp c p2 m) (hd : DirOk G c.dir)
    (hcs : c.callers = (fr, e) :: cs) (hw : Waits c.dir ((fr, e) :: cs)) {p : Id}
    (hp : c.parentNode = [p]) : ∃ x ∈ cs, p = x.1.file := by
  obtain ⟨hpath, ⟨t, T, hT⟩, hrest⟩ := hw
  have hstart := hb.start
  have hinner := hb.inner
  rw [hcs, List.length_cons] at hinner
  by_cases hm : m = 1
  · -- the cycle starts at the root, which has no parent
    have hnil := hb.parent
    rw [hm, Nat.sub_self, List.take_zero, findParent_nil, hp] at hnil
    cases hnil
  obtain ⟨x, hx, hlink⟩ := hrest.exists_depth (m := m - 1) (by omega) (by omega)
  have hrlen : fr.rootlink.length = cs.length + 1 := hpath.length_rootlink hrest
  have htake : (calleeLink c.callers).take (m - 1) = x.1.rootlink := by
    rw [hlink, hcs, calleeLink, List.take_append_of_le_length, hpath.rootlink]
    rw [hrlen]
    omega
  obtain ⟨f, hf, hfl⟩ := linkOf_eq_some.mp (hrest.linkOf hx)
  have hmem : x.1.file ∈ c.parentNode := by
    rw [hb.parent, htake, Dir.findParent, List.mem_filter, hf]
    refine ⟨hd.linked.mem _ f hf, ?_⟩
    have hne := hd.linked.nonempty _ f hf
    rw [hfl] at hne
    simp [TreeFile.hasLine, hfl, hne]
  rw [hp, List.mem_singleton] at hmem
  exact ⟨x, hx, hmem.symm⟩

/-- **What an exchange does**: it detaches the entry, and gives it to a waiting
caller further out when the parent is found. -/
theorem Inv.exchange_eq (h : Inv G strict c) {p2 : Nat} (hctl : c.ctl = .ret p2) (h0 : p2 ≠ 0)
    (hcs : c.callers = (fr, e) :: cs) :
    ((∀ p, c.parentNode ≠ [p]) ∧
        Jhalfs.exchange c.dir c.parentNode fr e = c.dir.detach fr e) ∨
      ∃ x ∈ cs, c.parentNode = [x.1.file] ∧
        Jhalfs.exchange c.dir c.parentNode fr e = (c.dir.detach fr e).appendLine x.1.file e := by
  have hw := h.waits hcs
  obtain ⟨hpath, ⟨t, T, hT⟩, hrest⟩ := h.waits hcs
  obtain ⟨f, hf, hfl⟩ := linkOf_eq_some.mp hT.callee
  have herase : treeErase c.dir e.id = c.dir.eraseUnder (fr.rootlink ++ [fr.count]) := by
    rw [treeErase_eq h.dir.linked hf, hfl]
  have hmem : e ∈ t.entries := by
    refine hT.at_entry.subset ?_
    exact List.mem_append_right _ List.mem_cons_self
  have hbuild : ({ e with build := .b } : Entry) = e := by
    have := (h.dir.entries _ t hT.tree e hmem).1
    cases e
    cases this
    rfl
  unfold Jhalfs.exchange
  rw [herase, hbuild]
  by_cases hone : ∃ p, c.parentNode = [p]
  · obtain ⟨p, hp⟩ := hone
    obtain ⟨m, hm⟩ := h.backingUp hctl h0
    obtain ⟨x, hx, rfl⟩ := hm.parent_eq h.dir hcs hw hp
    rw [hp]
    exact Or.inr ⟨x, hx, rfl, rfl⟩
  · refine Or.inl ⟨fun p hp => hone ⟨p, hp⟩, ?_⟩
    split
    · next p hp => exact absurd ⟨p, hp⟩ hone
    · rfl

/-- The waiting callers further out keep their files, which may have gained the
edge; the other files are those of the detached directory. -/
structure Exchanged (d d' : Dir) (fr : Frame) (e : Entry) (cs : List (Frame × Entry)) :
    Prop where
  linkOf : d'.linkOf = (d.detach fr e).linkOf
  grows : ∀ y ∈ cs, Grows d d' y.1.file
  others : ∀ n, (∀ y ∈ cs, n ≠ y.1.file) →
    d'.tree n = (d.detach fr e).tree n ∧ d'.dep n = (d.detach fr e).dep n

theorem Waits.file_ne {d : Dir} (hw : Waits d ((fr, e) :: cs)) {y : Frame × Entry}
    (hy : y ∈ cs) : y.1.file ≠ fr.file := by
  obtain ⟨hpath, ⟨t, T, hT⟩, hrest⟩ := hw
  intro heq
  have hy' := hrest.linkOf hy
  rw [heq, linkOf_of_tree hT.tree, hT.link, hpath.rootlink] at hy'
  exact hrest.rootlink_ne hy (Option.some.inj hy').symm

theorem Waits.not_below {d : Dir} (hw : Waits d ((fr, e) :: cs)) {y : Frame × Entry}
    (hy : y ∈ (fr, e) :: cs) : ¬ fr.rootlink ++ [fr.count] <+: y.1.rootlink := by
  intro hpre
  have hne := hw.rootlink_ne hy
  have hpre' := hw.rootlink_above hy
  exact hne (hpre'.eq_of_length (Nat.le_antisymm hpre'.length_le hpre.length_le))

theorem Inv.exchanged (h : Inv G strict c) {p2 : Nat} (hctl : c.ctl = .ret p2) (h0 : p2 ≠ 0)
    (hcs : c.callers = (fr, e) :: cs) :
    Exchanged c.dir (Jhalfs.exchange c.dir c.parentNode fr e) fr e cs ∧
      DirOk G (Jhalfs.exchange c.dir c.parentNode fr e) := by
  have hw := h.waits hcs
  have hfile : ∀ y ∈ cs, y.1.file ≠ fr.file := fun y hy => hw.file_ne hy
  have htree : ∀ y ∈ cs, (c.dir.detach fr e).tree y.1.file = c.dir.tree y.1.file := by
    intro y hy
    obtain ⟨f, hf, hfl⟩ := linkOf_eq_some.mp (hw.linkOf (List.mem_cons_of_mem _ hy))
    rw [hf, detach_tree, hfl]
    exact ⟨hf, hw.not_below (List.mem_cons_of_mem _ hy)⟩
  have hdep : ∀ y ∈ cs, (c.dir.detach fr e).dep y.1.file = c.dir.dep y.1.file :=
    fun y hy => detach_dep_of_ne (hfile y hy)
  -- the branch that is erased is below the root
  have hroot : ¬ fr.rootlink ++ [fr.count] <+: [1] := by
    intro hpre
    have hlen := hpre.length_le
    have hrlen := length_calleeLink hw
    rw [calleeLink, List.length_cons] at hrlen
    rw [hrlen, List.length_singleton] at hlen
    omega
  have hdir : DirOk G (c.dir.detach fr e) := (h.dir.eraseUnder hroot).deleteDep _ _
  rcases h.exchange_eq hctl h0 hcs with ⟨-, heq⟩ | ⟨x, hx, -, heq⟩
  · rw [heq]
    exact ⟨⟨rfl, fun y hy => grows_of_eq (htree y hy) (hdep y hy), fun n _ => ⟨rfl, rfl⟩⟩, hdir⟩
  · obtain ⟨f, hf, -⟩ := linkOf_eq_some.mp (hw.linkOf (List.mem_cons_of_mem _ hx))
    have hf' : (c.dir.detach fr e).tree x.1.file = some f := (htree x hx).trans hf
    obtain ⟨-, ⟨t, T, hT⟩, -⟩ := h.waits hcs
    have he : e.build = .b ∧ e.id ∈ c.dir.names := by
      refine h.dir.entries _ t hT.tree e (hT.at_entry.subset ?_)
      exact List.mem_append_right _ List.mem_cons_self
    rw [heq]
    refine ⟨⟨appendLine_linkOf, fun y hy => ?_, fun n hn => ?_⟩, hdir.appendLine hf' he⟩
    -- the parent of the start of the cycle gets the line, the others nothing
    · by_cases hyx : y.1.file = x.1.file
      · rw [hyx]
        refine ⟨[e], ?_, ?_⟩
        · rw [appendLine_tree_self hf', hf]
          rfl
        · rw [appendLine_dep_self, hdep x hx]
      · refine grows_of_eq ?_ ?_
        · rw [appendLine_tree_of_ne hyx, htree y hy]
        · rw [appendLine_dep_of_ne hyx, hdep y hy]
    · exact ⟨appendLine_tree_of_ne (hn x hx), appendLine_dep_of_ne (hn x hx)⟩

/-- The frame goes on after an exchange: the entry is removed. -/
theorem Waiting.exchanged {d d' : Dir} {t : TreeFile} {T : List (Entry × Bool)}
    (hw : Waits d ((fr, e) :: cs)) (hT : Waiting d fr e cs t T)
    (hx : Exchanged d d' fr e cs) :
    Running d' (fr.remove e) cs t (T ++ [(e, false)]) := by
  obtain ⟨htree, hdep⟩ := hx.others fr.file fun y hy heq => hw.file_ne hy heq.symm
  exact
    { tree := by
        show d'.tree fr.file = _
        rw [htree, detach_tree, hT.link]
        exact ⟨hT.tree, hw.not_below List.mem_cons_self⟩
      link := hT.link
      priolink := hT.priolink
      read := by simpa using hT.at_entry
      removed := by
        show fr.linesToRemove ++ [e.id] = _
        rw [hT.removed]
        simp
      count := by
        show (T ++ [(e, false)]).length = fr.count
        rw [List.length_append, ← hT.count]
        rfl
      children := by
        rw [children_concat_dropped]
        intro n k
        show d'.linkOf n = some (fr.rootlink ++ [k]) ↔ _
        rw [hx.linkOf, detach_linkOf, hT.children n k, exists_concat_kept,
          List.prefix_append_right_inj, List.singleton_prefix_cons_iff, ← hT.count]
        constructor
        · rintro ⟨⟨-, rfl⟩ | hold, hne⟩
          · exact absurd rfl hne
          · exact hold
        -- the other children stand on earlier lines
        · rintro ⟨i, e', rfl, hi, rfl⟩
          refine ⟨Or.inr ⟨i, e', rfl, hi, rfl⟩, ?_⟩
          have := (List.getElem?_eq_some_iff.mp hi).1
          omega
      deps := by
        intro x hxd
        have hxd' : x ∈ (d.detach fr e).dep fr.file := hdep ▸ hxd
        obtain ⟨hxold, hne⟩ := id_ne_of_mem_deleteDep hxd'
        rcases hT.deps x hxold with hunread | hxe | ⟨l, hl, hls⟩
        · exact Or.inl hunread
        · exact absurd hxe hne
        · refine Or.inr ⟨l, ?_, ?_⟩
          · rw [hx.linkOf, detach_linkOf]
            exact ⟨hl, hls.not_below hw⟩
          · rcases earlierBranch_cons.mp hls with ⟨k, rest, -, rfl⟩ | hearly
            · refine Or.inr ⟨List.prefix_append _ _, fun heq => ?_⟩
              simpa [Frame.remove] using congrArg List.length heq
            · exact Or.inl hearly }

theorem Inv.exchange (h : Inv G strict c) {p2 : Nat} (hctl : c.ctl = .ret p2) (h0 : p2 ≠ 0)
    (hcs : c.callers = (fr, e) :: cs) :
    Inv G strict
      { c with
        dir := Jhalfs.exchange c.dir c.parentNode fr e
        ctl := .run (fr.remove e)
        callers := cs } := by
  have hw := h.waits hcs
  obtain ⟨hx, hdir⟩ := h.exchanged hctl h0 hcs
  generalize Jhalfs.exchange c.dir c.parentNode fr e = d' at hx hdir
  obtain ⟨hpath, ⟨t, T, hT⟩, hrest⟩ := h.waits hcs
  -- what is erased is below the frame that goes on
  have hagree : AgreeOutside (calleeLink cs) c.dir d' := by
    intro n l hnot
    rw [hx.linkOf, detach_linkOf]
    refine and_iff_left fun hpre => hnot ?_
    rw [← hpath.rootlink]
    refine ⟨(List.prefix_append _ _).trans hpre, ?_⟩
    rintro rfl
    exact absurd hpre.length_le (by simp)
  have hnew : ∀ {l}, Settled
      { c with dir := d', ctl := .run (fr.remove e), callers := cs } l ↔
        EarlierBranch cs l ∨ fr.rootlink <+: l ∧ l ≠ fr.rootlink := by
    intro l
    rw [hpath.rootlink]
    exact settled_run rfl
  refine ⟨hdir, hrest.mono hagree hx.grows,
    ⟨⟨hpath.file, hpath.rootlink, hpath.priolink⟩, t, _, hT.exchanged hw hx⟩,
    fun u tu hu hsettled => ?_⟩
  have hu' : d'.linkOf u = some tu.link := linkOf_of_tree hu
  rw [hx.linkOf, detach_linkOf] at hu'
  obtain ⟨hul, hnot⟩ := hu'
  -- what is settled now was in a finished branch before
  have hearly : EarlierBranch ((fr, e) :: cs) tu.link :=
    ((hT.settled_iff h.dir.linked hul).mp (hnew.mp hsettled)).resolve_right hnot
  have hnotwait : ∀ y ∈ (fr, e) :: cs, u ≠ y.1.file := by
    rintro y hy rfl
    rw [hw.linkOf hy, Option.some.injEq] at hul
    exact hearly.ne_rootlink hw hy hul.symm
  obtain ⟨htree, hdep⟩ := hx.others u fun y hy => hnotwait y (List.mem_cons_of_mem _ hy)
  have htu : c.dir.tree u = some tu := by
    have hu'' : d'.tree u = some tu := hu
    rw [htree, detach_tree] at hu''
    exact hu''.1
  have hearly' : EarlierBranch c.callers tu.link := hcs ▸ hearly
  obtain ⟨hdeps, S, hperm, hstrict, hch⟩ :=
    h.settled u tu htu ((settled_ret hctl h0).mpr hearly')
  refine ⟨fun x hxd => ?_, S, hperm, hstrict, fun n k => ?_⟩
  · have hxd' : x ∈ d'.dep u := hxd
    rw [hdep, detach_dep_of_ne (hnotwait _ List.mem_cons_self)] at hxd'
    obtain ⟨l, hl, hls, hbefore⟩ := hdeps x hxd'
    have hls' : EarlierBranch ((fr, e) :: cs) l := by
      have := (settled_ret hctl h0).mp hls
      rwa [hcs] at this
    have hlnot := hls'.not_below hw
    refine ⟨l, ?_, hnew.mpr ((hT.settled_iff h.dir.linked hl).mpr (Or.inl hls')), hbefore⟩
    show d'.linkOf x.id = some l
    rw [hx.linkOf, detach_linkOf]
    exact ⟨hl, hlnot⟩
  · show d'.linkOf n = _ ↔ _
    rw [hx.linkOf, detach_linkOf, hch n k]
    refine and_iff_left fun hpre => ?_
    have hleft := leftOf_prefix_left (hearly.leftOf hw) (List.prefix_append tu.link [k])
    exact not_leftOf_of_below hpre hleft

end Ret

end Jhalfs
