import Jhalfs.Deps.Moves

/-!
# What a step leaves undisturbed

The invariant speaks of all the active calls and of all the finished branches,
and a step changes the directory at one place. This file says what may change
without disturbing the rest.

- `Grows` and `AgreeOutside` are the two relations between the directory before
  and after: a file has only gained lines, and the links outside of a branch
  belong to the same nodes.
- `Waits.mono`: the waiting calls are not disturbed by what happens below their
  callee, as long as their files have only gained lines.
- `settled_run`, `settled_ret_zero` and `settled_ret` say which nodes are settled
  in each kind of state; `settled_run_iff` that a frame which goes on settles
  nothing.
- `Running.remove`, `Running.keep` and `Running.children_addChild` say what one
  more entry does to the tags of the frame that reads it: an entry is removed, or
  it is kept and gets a new child (`Dir.addChild`).
- `Tidy.addChild` and `Tidy.congr`: a settled file still lists its children.
-/

namespace Jhalfs

open Position

variable {G : DepFiles} {strict : Prop}

/-! ## Frame lemmas -/

/-- The file of `n` has only gained lines, the same in `.tree` and `.dep`. An exchange
does this to the parent that an edge is re-attached to. -/
def Grows (d d' : Dir) (n : Id) : Prop :=
  ∃ extra : List Entry,
    d'.tree n = (d.tree n).map (fun t => { t with entries := t.entries ++ extra }) ∧
      d'.dep n = d.dep n ++ extra

theorem grows_of_eq {d d' : Dir} {n : Id} (ht : d'.tree n = d.tree n)
    (hd : d'.dep n = d.dep n) : Grows d d' n := by
  refine ⟨[], ?_, by rw [hd, List.append_nil]⟩
  rw [ht]
  cases d.tree n <;> simp

/-- The links that are not strictly below `r` belong to the same nodes. -/
def AgreeOutside (r : List Nat) (d d' : Dir) : Prop :=
  ∀ n l, ¬ (r <+: l ∧ r ≠ l) → (d'.linkOf n = some l ↔ d.linkOf n = some l)

theorem agreeOutside_of_eq {r : List Nat} {d d' : Dir} (h : d'.linkOf = d.linkOf) :
    AgreeOutside r d d' := fun n l _ => by rw [h]

/-- A waiting call is not disturbed by what happens below its callee: its tags are the
same, and its file may have gained lines behind those it has read. -/
theorem Waiting.mono {d d' : Dir} {fr : Frame} {e : Entry} {cs : List (Frame × Entry)}
    {t : TreeFile} {T : List (Entry × Bool)} (h : Waiting d fr e cs t T)
    (hgrow : Grows d d' fr.file)
    (hkids : ∀ n k, d'.linkOf n = some (fr.rootlink ++ [k]) ↔
      d.linkOf n = some (fr.rootlink ++ [k]))
    (hearly : ∀ n l, d.linkOf n = some l → EarlierBranch ((fr, e) :: cs) l →
      d'.linkOf n = some l) :
    ∃ t', Waiting d' fr e cs t' T := by
  obtain ⟨extra, htree, hdep⟩ := hgrow
  have hcount : fr.count ≤ t.entries.length := by
    have := h.at_entry.length_le
    rw [List.length_append, List.length_map, List.length_singleton, h.count] at this
    exact this
  refine ⟨{ t with entries := t.entries ++ extra }, ?_⟩
  refine
    { tree := by rw [htree, h.tree]; rfl
      link := h.link
      priolink := h.priolink
      read := h.read.trans (List.prefix_append _ _)
      removed := h.removed
      count := h.count
      at_entry := h.at_entry.trans (List.prefix_append _ _)
      children := fun n k => (hkids n k).trans (h.children n k)
      deps := ?_ }
  intro x hx
  rw [List.drop_append_of_le_length hcount, idsOf_append, List.mem_append]
  rw [hdep] at hx
  rcases List.mem_append.mp hx with hx | hx
  · rcases h.deps x hx with hunread | hat | ⟨l, hl, hearlyl⟩
    · exact Or.inl (Or.inl hunread)
    · exact Or.inr (Or.inl hat)
    · exact Or.inr (Or.inr ⟨l, hearly _ _ hl hearlyl, hearlyl⟩)
  · exact Or.inl (Or.inr (mem_idsOf.mpr ⟨x, hx, rfl⟩))

theorem Waits.mono {d d' : Dir} {cs : List (Frame × Entry)} (h : Waits d cs)
    (hagree : AgreeOutside (calleeLink cs) d d') (hgrow : ∀ x ∈ cs, Grows d d' x.1.file) :
    Waits d' cs := by
  induction cs with
  | nil => trivial
  | cons x cs ih =>
    have hall := h
    obtain ⟨hpath, ⟨t, T, hT⟩, hrest⟩ := h
    have hlen : x.1.rootlink.length = cs.length + 1 := hpath.length_rootlink hrest
    refine ⟨hpath, ?_, ih hrest ?_ fun y hy => hgrow y (List.mem_cons_of_mem _ hy)⟩
    · -- a child of `x` is not strictly below another one
      have hkid : ∀ k, ¬ (calleeLink (x :: cs) <+: x.1.rootlink ++ [k] ∧
          calleeLink (x :: cs) ≠ x.1.rootlink ++ [k]) := by
        rintro k ⟨hpre, hne⟩
        refine hne (hpre.eq_of_length ?_)
        rw [calleeLink, List.length_append, List.length_append]
        rfl
      obtain ⟨t', hT'⟩ := hT.mono (hgrow x List.mem_cons_self)
        (fun n k => hagree n _ (hkid k))
        fun n l hn hl => (hagree n l fun hbelow => hl.not_below hall hbelow.1).mpr hn
      exact ⟨t', T, hT'⟩
    · intro n l hnot
      refine hagree n l fun hbelow => hnot ?_
      have hpre : calleeLink cs <+: calleeLink (x :: cs) := by
        rw [← hpath.rootlink]
        exact List.prefix_append _ _
      refine ⟨hpre.trans hbelow.1, ?_⟩
      rintro rfl
      have := hbelow.1.length_le
      rw [calleeLink, List.length_append, hpath.rootlink, List.length_singleton] at this
      omega

/-! ## Where the nodes are -/

theorem settled_run {c : Config} {fr : Frame} (hctl : c.ctl = .run fr) {l : List Nat} :
    Settled c l ↔ EarlierBranch c.callers l ∨
      calleeLink c.callers <+: l ∧ l ≠ calleeLink c.callers := by
  rw [Settled, hctl]

/-- A frame that goes on has the same settled nodes. -/
theorem settled_run_iff {c c' : Config} {fr fr' : Frame} (hctl : c.ctl = .run fr)
    (hctl' : c'.ctl = .run fr') (hcs : c'.callers = c.callers) {l : List Nat} :
    Settled c' l ↔ Settled c l := by
  rw [settled_run hctl, settled_run hctl', hcs]

theorem settled_ret_zero {c : Config} (hctl : c.ctl = .ret 0) {l : List Nat} :
    Settled c l ↔ EarlierBranch c.callers l ∨ calleeLink c.callers <+: l := by
  rw [Settled, hctl]
  simp

theorem settled_ret {c : Config} {p2 : Nat} (hctl : c.ctl = .ret p2) (h0 : p2 ≠ 0)
    {l : List Nat} : Settled c l ↔ EarlierBranch c.callers l := by
  rw [Settled, hctl]
  simp [h0]

/-- A node that comes before a node of a finished branch is in one too. -/
theorem EarlierBranch.of_before {d : Dir} {cs : List (Frame × Entry)} (h : Waits d cs)
    {l m : List Nat} (hm : EarlierBranch cs m) (hlm : Before l m) : ¬ calleeLink cs <+: l := by
  intro hpre
  have hleft := hm.leftOf h
  exact before_asymm (before_of_above hlm hpre (hm.not_below h)) (Or.inr hleft)

section Frames

variable {d : Dir} {fr : Frame} {e : Entry} {cs : List (Frame × Entry)} {t : TreeFile}
  {T : List (Entry × Bool)}

/-- The tags and the entry the frame is about to read. -/
theorem Running.next_entry (h : Running d fr cs t T)
    (he : (d.entriesOf fr.file)[fr.count]? = some e) :
    t.entries[fr.count]? = some e ∧ (T.map Prod.fst) ++ [e] <+: t.entries ∧
      t.entries.drop fr.count = e :: t.entries.drop (fr.count + 1) ∧ e ∈ t.entries := by
  have he' : t.entries[fr.count]? = some e := by
    rw [Dir.entriesOf, h.tree] at he
    exact he
  obtain ⟨hlt, hget⟩ := List.getElem?_eq_some_iff.mp he'
  have hdrop : t.entries.drop fr.count = e :: t.entries.drop (fr.count + 1) := by
    rw [← hget]
    exact List.drop_eq_getElem_cons hlt
  obtain ⟨rest, hrest⟩ := h.read
  have hlen : (T.map Prod.fst).length = fr.count := by rw [List.length_map, h.count]
  have hrest' : rest = t.entries.drop fr.count := by
    rw [← hrest, ← hlen, List.drop_left]
  refine ⟨he', ⟨t.entries.drop (fr.count + 1), ?_⟩, hdrop, List.mem_of_getElem? he'⟩
  rw [List.append_assoc, List.singleton_append, ← hdrop, ← hrest', hrest]

theorem getElem?_concat_dropped {T : List (Entry × Bool)} {e e' : Entry} {i : Nat} :
    (T ++ [(e, false)])[i]? = some (e', true) ↔ T[i]? = some (e', true) := by
  rcases Nat.lt_trichotomy i T.length with h | h | h
  · rw [List.getElem?_append_left h]
  · subst h
    simp
  · rw [List.getElem?_eq_none (by simp; omega), List.getElem?_eq_none (by omega)]

theorem children_concat_dropped {l : List Nat} :
    Children d l (T ++ [(e, false)]) ↔ Children d l T := by
  unfold Children
  simp only [getElem?_concat_dropped]

/-- One more kept entry is one more child, at the next number. -/
theorem exists_concat_kept {e : Entry} {n : Id} {k : Nat} :
    (∃ i e', k = i + 1 ∧ (T ++ [(e, true)])[i]? = some (e', true) ∧ e'.id = n) ↔
      (n = e.id ∧ k = T.length + 1) ∨
        ∃ i e', k = i + 1 ∧ T[i]? = some (e', true) ∧ e'.id = n := by
  constructor
  · rintro ⟨i, e', rfl, hi, rfl⟩
    rcases Nat.lt_trichotomy i T.length with h | h | h
    · rw [List.getElem?_append_left h] at hi
      exact Or.inr ⟨i, e', rfl, hi, rfl⟩
    · subst h
      simp only [List.getElem?_concat_length, Option.some.injEq, Prod.mk.injEq, and_true] at hi
      exact Or.inl ⟨by rw [hi], rfl⟩
    · rw [List.getElem?_eq_none (by simp; omega)] at hi
      cases hi
  · rintro (⟨rfl, rfl⟩ | ⟨i, e', rfl, hi, rfl⟩)
    · exact ⟨T.length, e, rfl, List.getElem?_concat_length, rfl⟩
    · have hlt := (List.getElem?_eq_some_iff.mp hi).1
      exact ⟨i, e', rfl, by rw [List.getElem?_append_left hlt]; exact hi, rfl⟩

/-- The entry just read is removed; `d'` has the links of `d` and no more lines
for the file. -/
theorem Running.remove {d' : Dir} (h : Running d fr cs t T)
    (he : (d.entriesOf fr.file)[fr.count]? = some e) (htree : d'.tree = d.tree)
    (hdep : ∀ x ∈ d'.dep fr.file, x ∈ d.dep fr.file ∧ (x.id = e.id →
      ∃ l, d.linkOf x.id = some l ∧
        (EarlierBranch cs l ∨ fr.rootlink <+: l ∧ l ≠ fr.rootlink))) :
    Running d' (fr.next.remove e) cs t (T ++ [(e, false)]) := by
  obtain ⟨-, hread, hdrop, -⟩ := h.next_entry he
  have hlink : d'.linkOf = d.linkOf := by
    funext n
    rw [Dir.linkOf, htree]
    rfl
  exact
    { tree := by rw [htree]; exact h.tree
      link := h.link
      priolink := h.priolink
      read := by simpa using hread
      removed := by
        show fr.linesToRemove ++ [e.id] = _
        rw [h.removed]
        simp
      count := by
        show (T ++ [(e, false)]).length = fr.count + 1
        rw [List.length_append, h.count]
        rfl
      children := by
        rw [children_concat_dropped]
        intro n k
        rw [hlink]
        exact h.children n k
      deps := by
        intro x hx
        obtain ⟨hxd, hsettled⟩ := hdep x hx
        rw [hlink]
        -- a line that is not read yet may be the one that is removed
        rcases h.deps x hxd with hunread | hdone
        · rw [hdrop, idsOf_cons, List.mem_cons] at hunread
          rcases hunread with hxe | hunread
          · exact Or.inr (hsettled hxe)
          · exact Or.inl hunread
        · exact Or.inr hdone }

end Frames

/-! ## A new child -/

section NewChild

variable {d : Dir} {fr : Frame} {e : Entry} {cs : List (Frame × Entry)} {t : TreeFile}
  {T : List (Entry × Bool)}

/-- The directory after the frame has made a file for the entry it has read: the new
node is at the next number below the frame. -/
def Dir.addChild (d : Dir) (fr : Frame) (e : Entry) : Dir :=
  d.setTree e.id (childFile d fr e)

/-- A file after that was there, or is the child's and holds its lines. -/
theorem cases_addChild_tree {n : Id} (h : (d.addChild fr e).tree n = some t) :
    d.tree n = some t ∨ (n = e.id ∧ t.entries = d.dep e.id) := by
  by_cases hn : n = e.id
  · subst hn
    rw [Dir.addChild, setTree_tree_self] at h
    cases h
    exact Or.inr ⟨rfl, childFile_entries⟩
  · rw [Dir.addChild, setTree_tree_of_ne hn] at h
    exact Or.inl h

theorem addChild_linkOf (hnew : d.tree e.id = none) {n : Id} {l : List Nat} :
    (d.addChild fr e).linkOf n = some l ↔
      (n = e.id ∧ l = fr.rootlink ++ [fr.count + 1]) ∨ d.linkOf n = some l := by
  rw [Dir.addChild, setTree_linkOf_new hnew, childFile_link]

/-- No node is at or below the place of the new child yet. -/
theorem Running.fresh (h : Running d fr cs t T) (hd : Linked d) {n : Id} {l : List Nat}
    (hn : d.linkOf n = some l) : ¬ fr.rootlink ++ [fr.count + 1] <+: l := by
  intro hpre
  have hx : d.linkOf fr.file = some fr.rootlink :=
    linkOf_eq_some.mpr ⟨t, h.tree, h.link⟩
  have hbelow : fr.rootlink <+: l := (List.prefix_append _ _).trans hpre
  have hne : fr.rootlink ≠ l := by
    rintro rfl
    have := hpre.length_le
    rw [List.length_append, List.length_singleton] at this
    omega
  obtain ⟨k, rest, hk, rfl⟩ := h.children.below hd hx hn hbelow hne
  rw [List.prefix_append_right_inj, List.cons_prefix_cons] at hpre
  rw [h.count] at hk
  omega

theorem addChild_agree (hnew : d.tree e.id = none) :
    AgreeOutside fr.rootlink d (d.addChild fr e) := by
  intro n l hnot
  rw [addChild_linkOf hnew]
  refine or_iff_right ?_
  rintro ⟨-, rfl⟩
  refine hnot ⟨List.prefix_append _ _, fun he => ?_⟩
  simpa using congrArg List.length he

theorem addChild_grows (hnew : d.tree e.id = none) {n : Id} {l : List Nat}
    (hn : d.linkOf n = some l) : Grows d (d.addChild fr e) n := by
  have hne : n ≠ e.id := by
    rintro rfl
    rw [Dir.linkOf, hnew] at hn
    cases hn
  exact grows_of_eq (setTree_tree_of_ne hne) rfl

theorem Running.linked_addChild (h : Running d fr cs t T) (hd : Linked d)
    (hmem : e.id ∈ d.names) (hnew : d.tree e.id = none)
    (he : (d.entriesOf fr.file)[fr.count]? = some e) : Linked (d.addChild fr e) where
  mem n f hn := by
    by_cases hne : n = e.id
    · rw [hne]
      exact hmem
    · rw [Dir.addChild, setTree_tree_of_ne hne] at hn
      exact hd.mem n f hn
  nonempty n f hn := by
    by_cases hne : n = e.id
    · subst hne
      rw [Dir.addChild, setTree_tree_self] at hn
      cases hn
      simp
    · rw [Dir.addChild, setTree_tree_of_ne hne] at hn
      exact hd.nonempty n f hn
  inj m n f g hm hn hfg := by
    have hm' := (addChild_linkOf hnew).mp (linkOf_of_tree hm)
    have hn' := (addChild_linkOf hnew).mp (linkOf_of_tree hn)
    rw [← hfg] at hn'
    -- no other file has the link of the new one
    rcases hm' with ⟨rfl, hlm⟩ | hm' <;> rcases hn' with ⟨rfl, hln⟩ | hn'
    · rfl
    · rw [hlm] at hn'
      exact absurd List.prefix_rfl (h.fresh hd hn')
    · rw [hln] at hm'
      exact absurd List.prefix_rfl (h.fresh hd hm')
    · exact hd.linkOf_inj hm' hn'
  parent n f hn hroot := by
    have hfr : (d.addChild fr e).tree fr.file = some t := by
      have hne : fr.file ≠ e.id := by
        intro heq
        rw [← heq, h.tree] at hnew
        cases hnew
      rw [Dir.addChild, setTree_tree_of_ne hne]
      exact h.tree
    by_cases hne : n = e.id
    · subst hne
      rw [Dir.addChild, setTree_tree_self] at hn
      cases hn
      refine ⟨fr.file, t, fr.count + 1, hfr, by rw [childFile_link, h.link], ?_⟩
      exact mem_idsOf.mpr ⟨e, (h.next_entry he).2.2.2, rfl⟩
    · rw [Dir.addChild, setTree_tree_of_ne hne] at hn
      obtain ⟨p, g, k, hp, hlink, hmem⟩ := hd.parent n f hn hroot
      refine ⟨p, g, k, ?_, hlink, hmem⟩
      have hpe : p ≠ e.id := by
        rintro rfl
        rw [hnew] at hp
        cases hp
      rw [Dir.addChild, setTree_tree_of_ne hpe]
      exact hp

/-- The children of the frame after the new one. -/
theorem Running.children_addChild (h : Running d fr cs t T) (hnew : d.tree e.id = none) :
    Children (d.addChild fr e) fr.rootlink (T ++ [(e, true)]) := by
  intro n k
  rw [addChild_linkOf hnew, exists_concat_kept, h.children n k, h.count]
  simp

/-- The entry just read is kept: it is a node without dependencies. -/
theorem Running.keep (h : Running d fr cs t T)
    (he : (d.entriesOf fr.file)[fr.count]? = some e) (hnew : d.tree e.id = none) :
    Running (d.addChild fr e) fr.next cs t (T ++ [(e, true)]) := by
  obtain ⟨-, hread, hdrop, -⟩ := h.next_entry he
  have hfr : fr.file ≠ e.id := by
    intro heq
    rw [← heq, h.tree] at hnew
    cases hnew
  exact
    { tree := (setTree_tree_of_ne hfr).trans h.tree
      link := h.link
      priolink := h.priolink
      read := by simpa using hread
      removed := by
        show fr.linesToRemove = _
        rw [h.removed]
        simp
      count := by
        rw [List.length_append, h.count]
        rfl
      children := h.children_addChild hnew
      deps := by
        intro x hx
        rcases h.deps x hx with hunread | ⟨l, hl, hls⟩
        · rw [hdrop, idsOf_cons, List.mem_cons] at hunread
          rcases hunread with hxe | hunread
          · refine Or.inr ⟨fr.rootlink ++ [fr.count + 1],
              (addChild_linkOf hnew).mpr (Or.inl ⟨hxe, rfl⟩), Or.inr ⟨List.prefix_append _ _, ?_⟩⟩
            exact fun heq => by simpa [Frame.next] using congrArg List.length heq
          · exact Or.inl hunread
        · exact Or.inr ⟨l, (addChild_linkOf hnew).mpr (Or.inr hl), hls⟩ }

/-- The new child has no children yet. -/
theorem Running.no_children (h : Running d fr cs t T) (hd : Linked d)
    (hnew : d.tree e.id = none) :
    Children (d.addChild fr e) (fr.rootlink ++ [fr.count + 1]) [] := by
  intro n k
  refine iff_of_false (fun hn => ?_) (by simp)
  rcases (addChild_linkOf hnew).mp hn with ⟨-, hl⟩ | hn
  · simpa using congrArg List.length hl
  · exact h.fresh hd hn (List.prefix_append _ _)

/-- A node with another link keeps its children. -/
theorem Tidy.addChild {u : TreeFile} (h : Tidy strict d u) (hnew : d.tree e.id = none)
    (hne : u.link ≠ fr.rootlink) : Tidy strict (d.addChild fr e) u := by
  obtain ⟨S, hperm, hstrict, hch⟩ := h
  refine ⟨S, hperm, hstrict, fun n k => ?_⟩
  rw [addChild_linkOf hnew, ← hch n k]
  refine or_iff_right ?_
  rintro ⟨-, hl⟩
  exact hne (List.append_inj' hl rfl).1

end NewChild

theorem Tidy.congr {d d' : Dir} {u : TreeFile} (h : Tidy strict d u)
    (hlink : d'.linkOf = d.linkOf) : Tidy strict d' u := by
  obtain ⟨S, hperm, hstrict, hch⟩ := h
  refine ⟨S, hperm, hstrict, fun n k => ?_⟩
  rw [hlink]
  exact hch n k

end Jhalfs
