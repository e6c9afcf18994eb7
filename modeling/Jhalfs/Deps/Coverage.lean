import Jhalfs.Deps.Order

/-!
# No package lost, none doubled

What is reachable from root stays reachable in the `.dep` files as they are edited,
as long as a step that removes an edge leaves its end listed by another active
call, further out (`Supplied`): a pruned edge leads back to a caller, which its
own caller lists, and an exchanged one is given to the parent of the cycle. Two
things can go wrong, and `losesNothing` excludes them: the parent's file is
looked up by a line that another file can have as its line of weights, and then
the edge is given to nobody (`sharedLine`); and the `sed` that removes an edge
takes every line with the name in it.

- `edgeRemoved` is the edge that the next step removes, read off the state, and
  `losesNothing` the condition on the step.
- `Covered` is the invariant: what was reachable still is, and what an active call
  has not dealt with is listed by it or by a call further out.
- `Rooted` is the other direction: nothing gets into the tree that is not
  reachable in the input.
- `Covered.linkOf_iff`: when the pass has returned, the nodes of the tree are the
  packages, so the list has all of them, each once
  (`printsAll_of_losesNothing`).

Each move but two leaves the lines alone, and then only what the calls still have
to read matters (`Covered.of_dep`); the pruning and the exchange have their own
lemmas.
-/

namespace Jhalfs

open Machine

/-- `sed "/$id/d"` on the file deletes only lines of that id: no other line has the id
in it. -/
def deletesOnly (d : Dir) (file id : Id) : Bool :=
  (d.dep file).all fun x => !x.contains id || x.id == id

theorem mem_deleteDep_of_ne {d : Dir} {file id : Id} (h : deletesOnly d file id = true)
    {x : Entry} (hx : x ∈ d.dep file) (hne : x.id ≠ id) :
    x ∈ (d.deleteDep file id).dep file := by
  rw [deleteDep_dep_self, List.mem_filter]
  have := List.all_eq_true.mp h x hx
  exact ⟨hx, by simpa [hne] using this⟩

/-- The file and the entry whose lines the next step deletes: a circular entry
that is pruned, or one that is exchanged. -/
def edgeRemoved (c : Config) : Option (Id × Entry) :=
  match c.ctl with
  | .run fr =>
    match (c.dir.entriesOf fr.file)[fr.count]? with
    | some e =>
      match c.dir.tree e.id with
      | some other =>
        if linkTest other.link fr.rootlink &&
            decide (lowestPriority other.link.length fr.rootlink.length fr.priolink ≤ e.prio.val)
        then some (fr.file, e) else none
      | none => none
    | none => none
  | .ret p2 =>
    match c.callers with
    | (fr, e) :: _ => if p2 = e.prio.val then some (fr.file, e) else none
    | [] => none
  | .exit => none

/-- The state hands a return value to a caller. -/
def Ctl.isRet : Ctl → Bool
  | .ret _ => true
  | _ => false

/-- If the step removes an edge, it removes no other one, and if it is an
exchange, it finds the one parent to give the edge to. It is a test on the state
before the step, with the code's own `grep` for the parent. -/
def losesNothing (c : Config) : Bool :=
  match edgeRemoved c with
  | some (file, e) =>
    deletesOnly c.dir file e.id && (!c.ctl.isRet || c.parentNode.length == 1)
  | none => true

theorem edgeRemoved_prune {c : Config} {fr : Frame} {e : Entry} {other : TreeFile}
    (hctl : c.ctl = .run fr) (he : (c.dir.entriesOf fr.file)[fr.count]? = some e)
    (hother : c.dir.tree e.id = some other) (hne : other.link ≠ [])
    (hcirc : other.link <+: fr.rootlink)
    (hp : lowestPriority other.link.length fr.rootlink.length fr.priolink ≤ e.prio.val) :
    edgeRemoved c = some (fr.file, e) := by
  have htest := (linkTest_iff hne).mpr hcirc
  simp [edgeRemoved, hctl, he, hother, htest, hp]

theorem edgeRemoved_exchange {c : Config} {fr : Frame} {e : Entry} {cs : List (Frame × Entry)}
    (hctl : c.ctl = .ret e.prio.val) (hcs : c.callers = (fr, e) :: cs) :
    edgeRemoved c = some (fr.file, e) := by
  simp [edgeRemoved, hctl, hcs]

theorem losesNothing_deletes {c : Config} (h : losesNothing c = true) {file : Id} {e : Entry}
    (hremoved : edgeRemoved c = some (file, e)) : deletesOnly c.dir file e.id = true := by
  rw [losesNothing, hremoved] at h
  exact (Bool.and_eq_true_iff.mp h).1

theorem losesNothing_parent {c : Config} (h : losesNothing c = true) {file : Id} {e : Entry}
    (hremoved : edgeRemoved c = some (file, e)) (hctl : c.ctl = .ret e.prio.val) :
    ∃ p, c.parentNode = [p] := by
  rw [losesNothing, hremoved] at h
  simpa [Ctl.isRet, hctl, List.length_eq_one_iff] using (Bool.and_eq_true_iff.mp h).2

/-! ## Who lists what is still to be built -/

/-- One of the files lists the node; the root needs no one to list it. So a node that is listed is
found by the walk, if its parent is. -/
def Listed (d : Dir) (files : List Id) (n : Id) : Prop :=
  n = rootId ∨ ∃ p ∈ files, n ∈ idsOf (d.dep p)

/-- The files of the callers. -/
def callerFiles (cs : List (Frame × Entry)) : List Id := cs.map fun y => y.1.file

theorem mem_callerFiles {cs : List (Frame × Entry)} {p : Id} :
    p ∈ callerFiles cs ↔ ∃ y ∈ cs, y.1.file = p := List.mem_map

/-- What a waiting call has not dealt with is listed by it or by a call further
out. -/
def Supplied (d : Dir) : List (Frame × Entry) → Prop
  | [] => True
  | x :: cs => (∀ y ∈ x.2 :: x.1.unread d, Listed d (callerFiles (x :: cs)) y.id) ∧ Supplied d cs

/-- What was reachable still is, and what is still to be built is listed by the file of
an active call: so it will be built even if the call that was to build it gives
its edge away. -/
structure Covered (G : DepFiles) (c : Config) : Prop where
  reachable : ∀ n, DependsOn G.dep rootId n → DependsOn c.dir.dep rootId n
  waiting : Supplied c.dir c.callers
  current : ∀ fr, c.ctl = .run fr → ∀ y ∈ fr.unread c.dir,
    Listed c.dir (fr.file :: callerFiles c.callers) y.id

theorem Listed.mono {d d' : Dir} {files files' : List Id} {n : Id} (h : Listed d files n)
    (hsub : ∀ p ∈ files, p ∈ files' ∧ idsOf (d.dep p) ⊆ idsOf (d'.dep p)) :
    Listed d' files' n := by
  refine h.imp_right ?_
  rintro ⟨p, hp, hx⟩
  exact ⟨p, (hsub p hp).1, (hsub p hp).2 hx⟩

/-- A file that has lost one name only, and callers that have lost none, list the others. -/
theorem Listed.frame {d d' : Dir} {file n m : Id} {cs : List (Frame × Entry)}
    (h : Listed d (file :: callerFiles cs) n) (hne : n ≠ m)
    (hkept : ∀ {k}, k ∈ idsOf (d.dep file) → k ≠ m → k ∈ idsOf (d'.dep file))
    (hsub : ∀ y ∈ cs, idsOf (d.dep y.1.file) ⊆ idsOf (d'.dep y.1.file)) :
    Listed d' (file :: callerFiles cs) n := by
  refine h.imp_right ?_
  rintro ⟨p, hp, hn⟩
  rcases List.mem_cons.mp hp with rfl | hp
  · exact ⟨_, List.mem_cons_self, hkept hn hne⟩
  · obtain ⟨y, hy, rfl⟩ := mem_callerFiles.mp hp
    exact ⟨_, List.mem_cons_of_mem _ hp, hsub y hy hn⟩

/-- The waiting calls are still supplied when their files have only gained
lines. -/
theorem Supplied.mono {d d' : Dir} {cs : List (Frame × Entry)} (h : Supplied d cs)
    (hw : Waits d cs) (hgrow : ∀ y ∈ cs, Grows d d' y.1.file) : Supplied d' cs := by
  induction cs with
  | nil => trivial
  | cons x cs ih =>
    have hsub : ∀ p ∈ callerFiles (x :: cs), idsOf (d.dep p) ⊆ idsOf (d'.dep p) := by
      intro p hp
      obtain ⟨y, hy, rfl⟩ := mem_callerFiles.mp hp
      obtain ⟨extra, -, hdep⟩ := hgrow y hy
      rw [hdep, idsOf_append]
      exact List.subset_append_left _ _
    refine ⟨fun y hy => ?_, ih h.2 hw.2.2 fun y hy => hgrow y (List.mem_cons_of_mem _ hy)⟩
    obtain ⟨t, T, hT⟩ := hw.2.1
    obtain ⟨extra, htree, hdep⟩ := hgrow x List.mem_cons_self
    have hread : y ∈ x.2 :: x.1.unread d ∨ y ∈ extra := by
      rcases List.mem_cons.mp hy with rfl | hy
      · exact Or.inl List.mem_cons_self
      · have hentries : d'.entriesOf x.1.file = d.entriesOf x.1.file ++ extra := by
          rw [Dir.entriesOf, Dir.entriesOf, htree, hT.tree]
          rfl
        rw [Frame.unread, hentries, List.drop_append] at hy
        rcases List.mem_append.mp hy with hy | hy
        · exact Or.inl (List.mem_cons_of_mem _ hy)
        · exact Or.inr (List.drop_subset _ _ hy)
    rcases hread with hy | hy
    · exact (h.1 y hy).mono fun p hp => ⟨hp, hsub p hp⟩
    · refine Or.inr ⟨x.1.file, List.mem_cons_self, ?_⟩
      rw [hdep, idsOf_append]
      exact List.mem_append_right _ (mem_idsOf.mpr ⟨y, hy, rfl⟩)

/-- The active calls are reachable, by lines of the files of their callers. -/
theorem Supplied.reachable {d d' : Dir} {cs : List (Frame × Entry)} (h : Supplied d cs)
    (hw : Waits d cs) (hsub : ∀ y ∈ cs, idsOf (d.dep y.1.file) ⊆ idsOf (d'.dep y.1.file)) :
    DependsOn d'.dep rootId (calleeFile cs) ∧
      ∀ y ∈ cs, DependsOn d'.dep rootId y.1.file := by
  induction cs with
  | nil => exact ⟨Relation.ReflTransGen.refl, fun y hy => absurd hy List.not_mem_nil⟩
  | cons x cs ih =>
    obtain ⟨hcallee, hcallers⟩ := ih h.2 hw.2.2 fun y hy => hsub y (List.mem_cons_of_mem _ hy)
    have hall : ∀ y ∈ x :: cs, DependsOn d'.dep rootId y.1.file := by
      intro y hy
      rcases List.mem_cons.mp hy with rfl | hy
      · rw [hw.1.file]
        exact hcallee
      · exact hcallers y hy
    refine ⟨?_, hall⟩
    rcases h.1 x.2 List.mem_cons_self with hroot | ⟨p, hp, hx⟩
    · show DependsOn d'.dep rootId x.2.id
      rw [hroot]
      exact Relation.ReflTransGen.refl
    · obtain ⟨y, hy, rfl⟩ := mem_callerFiles.mp hp
      exact (hall y hy).tail (hsub y hy hx)

/-- The active calls are listed by their callers. -/
theorem Supplied.listed {d : Dir} {cs : List (Frame × Entry)} (h : Supplied d cs)
    (hw : Waits d cs) : Listed d (callerFiles cs) (calleeFile cs) ∧
      ∀ y ∈ cs, Listed d (callerFiles cs) y.1.file := by
  induction cs with
  | nil => exact ⟨Or.inl rfl, fun y hy => absurd hy List.not_mem_nil⟩
  | cons x cs ih =>
    obtain ⟨hcallee, hcallers⟩ := ih h.2 hw.2.2
    have hmono : ∀ {n}, Listed d (callerFiles cs) n → Listed d (callerFiles (x :: cs)) n :=
      fun hn => hn.mono fun p hp => ⟨List.mem_cons_of_mem _ hp, List.Subset.refl _⟩
    refine ⟨h.1 x.2 List.mem_cons_self, fun y hy => ?_⟩
    rcases List.mem_cons.mp hy with rfl | hy
    · rw [hw.1.file]
      exact hmono hcallee
    · exact hmono (hcallers y hy)

/-- What was reachable still is, when the end of each edge that has gone is. -/
theorem DependsOn.replace {dep dep' : Id → List Entry} {n : Id} (h : DependsOn dep rootId n)
    (hedge : ∀ a b, b ∈ idsOf (dep a) → b ∈ idsOf (dep' a) ∨ DependsOn dep' rootId b) :
    DependsOn dep' rootId n := by
  induction h with
  | refl => exact Relation.ReflTransGen.refl
  | tail _ hab ih =>
    rcases hedge _ _ hab with hab' | hb
    · exact ih.tail hab'
    · exact hb

/-! ## The moves -/

section Moves

variable {G : DepFiles} {strict : Prop} {c : Config} {fr : Frame} {e : Entry}
  {cs : List (Frame × Entry)}

/-- The start of a cycle is on the path. -/
theorem Inv.onPath_of_above (h : Inv G strict c) (hctl : c.ctl = .run fr) {n : Id}
    {l : List Nat} (hn : c.dir.linkOf n = some l) (hpre : l <+: fr.rootlink) :
    n = calleeFile c.callers ∨ ∃ y ∈ c.callers, n = y.1.file := by
  obtain ⟨hpath, t, T, hrun⟩ := h.running hctl
  rw [hpath.rootlink] at hpre
  rcases h.waiting.cases h.dir.linked h.dir.root hn with hpre' | ⟨y, hy, -, hny⟩ | hearly
  · have heq := hpre.eq_of_length (Nat.le_antisymm hpre.length_le hpre'.length_le)
    refine Or.inl (h.dir.linked.linkOf_inj hn ?_)
    rw [← hpath.file, heq, ← hpath.rootlink]
    exact linkOf_eq_some.mpr ⟨t, hrun.tree, hrun.link⟩
  · exact Or.inr ⟨y, hy, hny⟩
  · exact absurd (hearly.leftOf h.waiting) (Position.not_leftOf_of_above hpre)

theorem Covered.prune (h : Covered G c) (hinv : Inv G strict c) {other : TreeFile}
    (hctl : c.ctl = .run fr) (he : (c.dir.entriesOf fr.file)[fr.count]? = some e)
    (hother : c.dir.tree e.id = some other) (hcirc : other.link <+: fr.rootlink)
    (honly : deletesOnly c.dir fr.file e.id = true) :
    Covered G
      { c with dir := c.dir.deleteDep fr.file e.id, ctl := .run (fr.next.remove e) } := by
  have hgrow : ∀ y ∈ c.callers, Grows c.dir (c.dir.deleteDep fr.file e.id) y.1.file := fun y hy =>
    grows_of_eq rfl (deleteDep_dep_of_ne (hinv.file_ne_running hctl hy))
  have hsub : ∀ y ∈ c.callers,
      idsOf (c.dir.dep y.1.file) ⊆ idsOf ((c.dir.deleteDep fr.file e.id).dep y.1.file) := by
    intro y hy
    rw [deleteDep_dep_of_ne (hinv.file_ne_running hctl hy)]
    exact List.Subset.refl _
  have honpath := hinv.onPath_of_above hctl (linkOf_of_tree hother) hcirc
  -- the end of the edge is listed further out
  have hlisted : Listed (c.dir.deleteDep fr.file e.id) (callerFiles c.callers) e.id := by
    obtain ⟨hcallee, hcallers⟩ := h.waiting.listed hinv.waiting
    have hold : Listed c.dir (callerFiles c.callers) e.id := by
      rcases honpath with heq | ⟨y, hy, heq⟩
      · rw [heq]
        exact hcallee
      · rw [heq]
        exact hcallers y hy
    refine hold.mono fun p hp => ?_
    obtain ⟨y, hy, rfl⟩ := mem_callerFiles.mp hp
    exact ⟨hp, hsub y hy⟩
  -- so it stays reachable over the files of the callers, which are not edited
  have hreach : DependsOn (c.dir.deleteDep fr.file e.id).dep rootId e.id := by
    obtain ⟨hcallee, hcallers⟩ := h.waiting.reachable hinv.waiting hsub
    generalize (c.dir.deleteDep fr.file e.id).dep = dep at hcallee hcallers ⊢
    rcases honpath with heq | ⟨y, hy, heq⟩
    · rw [heq]
      exact hcallee
    · rw [heq]
      exact hcallers y hy
  have hkept : ∀ {n}, n ∈ idsOf (c.dir.dep fr.file) → n ≠ e.id →
      n ∈ idsOf ((c.dir.deleteDep fr.file e.id).dep fr.file) := by
    intro n hn hne
    obtain ⟨x, hx, rfl⟩ := mem_idsOf.mp hn
    exact mem_idsOf.mpr ⟨x, mem_deleteDep_of_ne honly hx hne, rfl⟩
  refine ⟨fun n hn => (h.reachable n hn).replace fun a b hab => ?_,
    h.waiting.mono hinv.waiting hgrow, fun fr' hfr' y hy => ?_⟩
  · by_cases ha : a = fr.file
    · subst ha
      by_cases hb : b = e.id
      · exact Or.inr (hb ▸ hreach)
      · exact Or.inl (hkept hab hb)
    · left
      show b ∈ idsOf ((c.dir.deleteDep fr.file e.id).dep a)
      rw [deleteDep_dep_of_ne ha]
      exact hab
  · cases hfr'
    have hy' : y ∈ fr.unread c.dir := by
      rw [Frame.unread_next he]
      exact List.mem_cons_of_mem _ hy
    by_cases hye : y.id = e.id
    · rw [hye]
      exact hlisted.mono fun p hp => ⟨List.mem_cons_of_mem _ hp, List.Subset.refl _⟩
    · exact (h.current fr hctl y hy').frame hye hkept hsub

theorem Covered.exchange (h : Covered G c) (hinv : Inv G strict c) {p2 : Nat}
    (hctl : c.ctl = .ret p2) (h0 : p2 ≠ 0) (hcs : c.callers = (fr, e) :: cs)
    (hone : ∃ p, c.parentNode = [p]) (honly : deletesOnly c.dir fr.file e.id = true) :
    Covered G
      { c with
        dir := Jhalfs.exchange c.dir c.parentNode fr e
        ctl := .run (fr.remove e)
        callers := cs } := by
  have hw := hinv.waits hcs
  have hsupplied : Supplied c.dir ((fr, e) :: cs) := hcs ▸ h.waiting
  have hx := (hinv.exchanged hctl h0 hcs).1
  obtain ⟨x, hxcs, -, heq⟩ : ∃ x ∈ cs, c.parentNode = [x.1.file] ∧
      Jhalfs.exchange c.dir c.parentNode fr e =
        (c.dir.detach fr e).appendLine x.1.file e := by
    rcases hinv.exchange_eq hctl h0 hcs with ⟨hno, -⟩ | hyes
    · obtain ⟨p, hp⟩ := hone
      exact absurd hp (hno p)
    · exact hyes
  -- the edge is not lost: the one parent that was found gets it
  have hparent : e.id ∈ idsOf ((Jhalfs.exchange c.dir c.parentNode fr e).dep x.1.file) := by
    rw [heq, appendLine_dep_self, idsOf_append]
    exact List.mem_append_right _ List.mem_cons_self
  generalize Jhalfs.exchange c.dir c.parentNode fr e = d' at hx hparent
  have hsub : ∀ y ∈ cs, idsOf (c.dir.dep y.1.file) ⊆ idsOf (d'.dep y.1.file) := by
    intro y hy
    obtain ⟨extra, -, hdep⟩ := hx.grows y hy
    rw [hdep, idsOf_append]
    exact List.subset_append_left _ _
  -- only the edge to `e` leaves the file of the frame
  obtain ⟨htreeF, hdepF⟩ := hx.others fr.file fun y hy heq => hw.file_ne hy heq.symm
  have hreach := ((hsupplied.2.reachable hw.2.2 hsub).2 x hxcs).tail hparent
  have hkept : ∀ {n}, n ∈ idsOf (c.dir.dep fr.file) → n ≠ e.id → n ∈ idsOf (d'.dep fr.file) := by
    intro n hn hne
    obtain ⟨z, hz, rfl⟩ := mem_idsOf.mp hn
    rw [hdepF]
    exact mem_idsOf.mpr ⟨z, mem_deleteDep_of_ne honly hz hne, rfl⟩
  refine ⟨fun n hn => (h.reachable n hn).replace fun a b hab => ?_,
    hsupplied.2.mono hw.2.2 hx.grows, fun fr' hfr' y hy => ?_⟩
  · by_cases ha : a = fr.file
    · subst ha
      by_cases hb : b = e.id
      · exact Or.inr (hb ▸ hreach)
      · exact Or.inl (hkept hab hb)
    · left
      by_cases hac : ∃ z ∈ cs, a = z.1.file
      · obtain ⟨z, hz, rfl⟩ := hac
        exact hsub z hz hab
      · show b ∈ idsOf (d'.dep a)
        rw [(hx.others a fun z hz heq => hac ⟨z, hz, heq⟩).2, detach_dep_of_ne ha]
        exact hab
  · cases hfr'
    have hy' : y ∈ e :: fr.unread c.dir := by
      have hread : (fr.remove e).unread d' = fr.unread c.dir := by
        obtain ⟨f, hf, hfl⟩ := linkOf_eq_some.mp (hw.linkOf List.mem_cons_self)
        have hfile : (c.dir.detach fr e).tree fr.file = some f := by
          rw [detach_tree, hfl]
          exact ⟨hf, hw.not_below List.mem_cons_self⟩
        have hentries : d'.entriesOf fr.file = c.dir.entriesOf fr.file := by
          rw [Dir.entriesOf, Dir.entriesOf, htreeF, hfile, hf]
        exact congrArg (List.drop fr.count) hentries
      have hmem : y ∈ (fr.remove e).unread d' := hy
      rw [hread] at hmem
      exact List.mem_cons_of_mem _ hmem
    by_cases hye : y.id = e.id
    · rw [hye]
      exact Or.inr ⟨_, List.mem_cons_of_mem _ (mem_callerFiles.mpr ⟨x, hxcs, rfl⟩), hparent⟩
    · exact (hsupplied.1 y hy').frame hye hkept hsub

/-- The moves that leave the `.dep` files alone and whose calls only read on. -/
theorem Covered.of_dep (h : Covered G c) {c' : Config} (hdep : c'.dir.dep = c.dir.dep)
    (hwaiting : Supplied c'.dir c'.callers)
    (hcurrent : ∀ fr', c'.ctl = .run fr' → ∀ y ∈ fr'.unread c'.dir,
      Listed c.dir (fr'.file :: callerFiles c'.callers) y.id) : Covered G c' := by
  refine ⟨fun n hn => ?_, hwaiting, fun fr' hfr' y hy => ?_⟩
  · rw [hdep]
    exact h.reachable n hn
  · refine (hcurrent fr' hfr' y hy).mono fun p hp => ⟨hp, ?_⟩
    rw [hdep]
    exact List.Subset.refl _

theorem Covered.step (h : Covered G c) (hinv : Inv G strict c) (hsafe : losesNothing c = true)
    {c' : Config} (hstep : generateDependencyTree c = some c') : Covered G c' := by
  cases move_of_step hstep with
  | finish fr hctl hend =>
    refine h.of_dep (cleanTree_dep fr) (h.waiting.mono hinv.waiting fun y hy => ?_)
      fun _ hfr' => by cases hfr'
    exact grows_of_eq (cleanTree_tree_of_ne (hinv.file_ne_running hctl hy))
      (by rw [cleanTree_dep])
  | quit fr e other hctl he hother hnil =>
    exact absurd hnil (hinv.dir.linked.nonempty _ other hother)
  | prune fr e other hctl he hother hnil hcirc hp =>
    exact h.prune hinv hctl he hother hcirc
      (losesNothing_deletes hsafe (edgeRemoved_prune hctl he hother hnil hcirc hp))
  | backUp fr e other hctl he hother hnil hcirc hp =>
    exact h.of_dep rfl h.waiting fun _ hfr' => by cases hfr'
  | skip fr e other hctl he hother hnil hcirc =>
    refine h.of_dep rfl h.waiting fun fr' hfr' y hy => ?_
    cases hfr'
    refine h.current fr hctl y ?_
    rw [Frame.unread_next he]
    exact List.mem_cons_of_mem _ hy
  | call fr e hctl he hnew hdep =>
    obtain ⟨hpath, t, T, hrun⟩ := hinv.running hctl
    -- the new file is not the one that the frame reads
    have hunread : fr.next.unread (c.dir.addChild fr e) = fr.next.unread c.dir := by
      have hne : fr.file ≠ e.id := by
        intro heq
        rw [← heq, hrun.tree] at hnew
        cases hnew
      show ((c.dir.addChild fr e).entriesOf fr.file).drop _ = _
      rw [Dir.entriesOf, Dir.addChild, setTree_tree_of_ne hne]
      rfl
    refine h.of_dep rfl ⟨fun y hy => ?_, h.waiting.mono hinv.waiting fun y hy =>
      addChild_grows hnew (hinv.waiting.linkOf hy)⟩ fun fr' hfr' y hy => ?_
    · have hy' : y ∈ e :: fr.next.unread c.dir := hunread ▸ hy
      rw [← Frame.unread_next he] at hy'
      exact h.current fr hctl y hy'
    · cases hfr'
      refine Or.inr ⟨e.id, List.mem_cons_self, mem_idsOf.mpr ⟨y, ?_, rfl⟩⟩
      have hy' : y ∈ ((c.dir.addChild fr e).entriesOf e.id).drop 0 := hy
      rw [Dir.entriesOf, Dir.addChild, setTree_tree_self, List.drop_zero] at hy'
      exact childFile_entries ▸ hy'
  | leaf fr e hctl he hnew hdep =>
    obtain ⟨hpath, t, T, hrun⟩ := hinv.running hctl
    refine h.of_dep rfl (h.waiting.mono hinv.waiting fun y hy =>
      addChild_grows hnew (hinv.waiting.linkOf hy)) fun fr' hfr' y hy => ?_
    cases hfr'
    refine h.current fr hctl y ?_
    rw [Frame.unread_next he]
    have hne : fr.file ≠ e.id := by
      intro heq
      rw [← heq, hrun.tree] at hnew
      cases hnew
    have hy' : y ∈ ((c.dir.addChild fr e).entriesOf fr.file).drop (fr.count + 1) := hy
    rw [Dir.entriesOf, Dir.addChild, setTree_tree_of_ne hne] at hy'
    exact List.mem_cons_of_mem _ hy'
  | resume fr e cs hctl hcs =>
    have hsupplied : Supplied c.dir ((fr, e) :: cs) := hcs ▸ h.waiting
    refine h.of_dep rfl hsupplied.2 fun fr' hfr' y hy => ?_
    cases hfr'
    exact hsupplied.1 y (List.mem_cons_of_mem _ hy)
  | exchange fr e cs p2 hctl h0 hp hcs =>
    have hctl' : c.ctl = .ret e.prio.val := hp ▸ hctl
    have hremoved := edgeRemoved_exchange hctl' hcs
    exact h.exchange hinv hctl h0 hcs (losesNothing_parent hsafe hremoved hctl')
      (losesNothing_deletes hsafe hremoved)
  | popUp fr e cs p2 hctl h0 hp hcs =>
    have hsupplied : Supplied c.dir ((fr, e) :: cs) := hcs ▸ h.waiting
    refine h.of_dep rfl hsupplied.2 fun fr' hfr' => ?_
    have hctl' : c.ctl = .run fr' := hfr'
    rw [hctl] at hctl'
    cases hctl'

end Moves

variable {G : DepFiles}

theorem Covered.start (G : DepFiles) : Covered G G.start := by
  refine ⟨fun _ hn => hn, trivial, fun fr hfr y hy => ?_⟩
  cases hfr
  exact Or.inr ⟨rootId, List.mem_cons_self, mem_idsOf.mpr ⟨y, hy, rfl⟩⟩

theorem Covered.of_reaches (hsafe : ∀ c, G.Reaches c → losesNothing c = true) {c : Config}
    (h : G.Reaches c) : Covered G c := by
  have hboth : Covered G c ∧ Inv G False c := by
    refine Steps.invariant_guarded (P := fun s => Covered G s ∧ Inv G False s)
      (G := fun s => losesNothing s = true) (fun s t hs hg hst => ?_) h
      ⟨Covered.start G, Inv.start G False⟩ hsafe
    exact ⟨hs.1.step hs.2 hg hst, hs.2.step (fun hf => hf.elim) hst⟩
  exact hboth.1

/-! ## Nothing else gets into the tree -/

/-- The nodes of the tree and what they list are reachable in the input, and so is
what a reachable node lists in its `.dep` file. -/
structure Rooted (G : DepFiles) (c : Config) : Prop where
  tree : ∀ n t, c.dir.tree n = some t →
    DependsOn G.dep rootId n ∧ ∀ e ∈ t.entries, DependsOn G.dep rootId e.id
  dep : ∀ n, DependsOn G.dep rootId n → ∀ e ∈ c.dir.dep n, DependsOn G.dep rootId e.id

theorem Rooted.start (G : DepFiles) : Rooted G G.start where
  tree n t ht := by
    obtain ⟨rfl, rfl⟩ := start_tree ht
    exact ⟨Relation.ReflTransGen.refl, fun e he =>
      Relation.ReflTransGen.single (mem_idsOf.mpr ⟨e, he, rfl⟩)⟩
  dep n hn e he := hn.tail (mem_idsOf.mpr ⟨e, he, rfl⟩)

theorem Rooted.addChild {c : Config} (h : Rooted G c) {fr : Frame} {e : Entry}
    (he : (c.dir.entriesOf fr.file)[fr.count]? = some e) (n : Id) (t : TreeFile)
    (ht : (c.dir.addChild fr e).tree n = some t) :
    DependsOn G.dep rootId n ∧ ∀ x ∈ t.entries, DependsOn G.dep rootId x.id := by
  have hreach : DependsOn G.dep rootId e.id := by
    have hmem := List.mem_of_getElem? he
    unfold Dir.entriesOf at hmem
    cases hf : c.dir.tree fr.file with
    | none =>
      rw [hf] at hmem
      exact absurd hmem List.not_mem_nil
    | some f =>
      rw [hf] at hmem
      exact (h.tree _ f hf).2 e hmem
  rcases cases_addChild_tree ht with ht | ⟨rfl, hentries⟩
  · exact h.tree n t ht
  · exact ⟨hreach, fun x hx => h.dep _ hreach x (hentries ▸ hx)⟩

theorem Rooted.exchange {strict : Prop} {c : Config} (h : Rooted G c) (hinv : Inv G strict c)
    {fr : Frame} {e : Entry} {cs : List (Frame × Entry)} {p2 : Nat} (hctl : c.ctl = .ret p2)
    (h0 : p2 ≠ 0) (hcs : c.callers = (fr, e) :: cs) :
    Rooted G
      { c with
        dir := Jhalfs.exchange c.dir c.parentNode fr e
        ctl := .run (fr.remove e)
        callers := cs } := by
  obtain ⟨-, ⟨t, T, hT⟩, -⟩ := hinv.waits hcs
  -- the entry at which the frame waits stands in its file
  have hreach : DependsOn G.dep rootId e.id := by
    refine (h.tree _ t hT.tree).2 e (hT.at_entry.subset ?_)
    exact List.mem_append_right _ List.mem_cons_self
  have hdetach : ∀ n, DependsOn G.dep rootId n → ∀ x ∈ (c.dir.detach fr e).dep n,
      DependsOn G.dep rootId x.id := fun n hn x hx => h.dep n hn x (mem_of_mem_deleteDep hx)
  rcases hinv.exchange_eq hctl h0 hcs with ⟨-, heq⟩ | ⟨y, -, -, heq⟩
  · rw [heq]
    exact ⟨fun n f hf => h.tree n f (detach_tree.mp hf).1, hdetach⟩
  · rw [heq]
    constructor
    · intro n f hf
      obtain ⟨f', hf', hentries⟩ := cases_appendLine_tree hf
      obtain ⟨hn, hold⟩ := h.tree n f' (detach_tree.mp hf').1
      refine ⟨hn, fun x hx => ?_⟩
      rcases hentries x hx with hx | ⟨-, rfl⟩
      · exact hold x hx
      · exact hreach
    · intro n hn x hx
      rcases cases_appendLine_dep hx with hx | ⟨-, rfl⟩
      · exact hdetach n hn x hx
      · exact hreach

theorem Rooted.step {strict : Prop} {c : Config} (h : Rooted G c) (hinv : Inv G strict c)
    {c' : Config} (hstep : generateDependencyTree c = some c') : Rooted G c' := by
  cases move_of_step hstep with
  | finish fr hctl hend =>
    refine ⟨fun n t ht => ?_, fun n hn e he => ?_⟩
    · obtain ⟨f, hf, hsub⟩ := cleanTree_tree ht
      exact ⟨(h.tree n f hf).1, fun e he => (h.tree n f hf).2 e (hsub.subset he)⟩
    · have he' : e ∈ (c.dir.cleanTree fr).dep n := he
      rw [cleanTree_dep] at he'
      exact h.dep n hn e he'
  | quit fr e other hctl he hother hnil => exact ⟨h.tree, h.dep⟩
  | prune fr e other hctl he hother hnil hcirc hp =>
    exact ⟨h.tree, fun n hn x hx => h.dep n hn x (mem_of_mem_deleteDep hx)⟩
  | backUp fr e other hctl he hother hnil hcirc hp => exact ⟨h.tree, h.dep⟩
  | skip fr e other hctl he hother hnil hcirc => exact ⟨h.tree, h.dep⟩
  | call fr e hctl he hnew hdep => exact ⟨h.addChild he, h.dep⟩
  | leaf fr e hctl he hnew hdep => exact ⟨h.addChild he, h.dep⟩
  | resume fr e cs hctl hcs => exact ⟨h.tree, h.dep⟩
  | exchange fr e cs p2 hctl h0 hp hcs => exact h.exchange hinv hctl h0 hcs
  | popUp fr e cs p2 hctl h0 hp hcs => exact ⟨h.tree, h.dep⟩

theorem Rooted.of_reaches {c : Config} (h : G.Reaches c) : Rooted G c := by
  have hboth : Rooted G c ∧ Inv G False c := by
    refine Steps.invariant (P := fun s => Rooted G s ∧ Inv G False s) (fun s t hs hst => ?_) h
      ⟨Rooted.start G, Inv.start G False⟩
    exact ⟨hs.1.step hs.2 hst, hs.2.step (fun hf => hf.elim) hst⟩
  exact hboth.1

/-! ## After the run -/

/-- When the pass has returned, what is reachable in the `.dep` files is in the
tree. -/
theorem Finished.linkOf_of_dependsOn {strict : Prop} {d : Dir} (h : Finished strict d) {n : Id}
    (hn : DependsOn d.dep rootId n) : d.linkOf n ≠ none := by
  induction hn with
  | refl =>
    rw [h.root]
    exact Option.some_ne_none _
  | tail _ hab ih =>
    obtain ⟨l, hl⟩ := Option.ne_none_iff_exists'.mp ih
    obtain ⟨t, ht, -⟩ := linkOf_eq_some.mp hl
    obtain ⟨e, he, rfl⟩ := mem_idsOf.mp hab
    obtain ⟨le, hle, -⟩ := h.deps _ t ht e he
    rw [hle]
    exact Option.some_ne_none _

/-- When the pass has returned, the nodes of the tree are the packages, if all of them
are reachable. -/
theorem Covered.linkOf_iff {strict : Prop} {c : Config} (h : Covered G c) (hinv : Inv G strict c)
    (hreach : G.AllReachable) (hctl : c.ctl = .ret 0) (hcs : c.callers = []) (n : Id) :
    n ≠ rootId ∧ c.dir.linkOf n ≠ none ↔ n ∈ G.pkgs := by
  constructor
  · rintro ⟨hne, hsome⟩
    obtain ⟨l, hl⟩ := Option.ne_none_iff_exists'.mp hsome
    obtain ⟨f, hf, -⟩ := linkOf_eq_some.mp hl
    have hnames := hinv.dir.linked.mem n f hf
    rw [hinv.dir.names] at hnames
    exact (List.mem_cons.mp hnames).resolve_left hne
  · intro hn
    exact ⟨fun heq => G.root_notMem (heq ▸ hn),
      (hinv.finished hctl hcs).linkOf_of_dependsOn (h.reachable n (hreach n hn))⟩

/-- What is asked of the printed list: every package, each once, in every state in
which the pass can return. -/
def DepFiles.PrintsAll (G : DepFiles) : Prop :=
  ∀ d, G.Returns d → ∃ out, d.list = some out ∧ out.Nodup ∧ ∀ n, n ∈ out ↔ n ∈ G.pkgs

/-- **No package lost, none doubled**, when no step of the run loses an edge: every package is
printed, each once and no other. -/
theorem printsAll_of_losesNothing (G : DepFiles) (hreach : G.AllReachable)
    (hsafe : ∀ c, G.Reaches c → losesNothing c = true) : G.PrintsAll := by
  rintro d ⟨c, hc, hctl, hcs, rfl⟩
  have hinv := inv_of_reaches hc
  obtain ⟨out, hout, hnodup, hmem, -⟩ := (hinv.finished hctl hcs).list
  refine ⟨out, hout, hnodup, fun n => (hmem n).trans ?_⟩
  exact (Covered.of_reaches hsafe hc).linkOf_iff hinv hreach hctl hcs n

theorem twoCycle_printsAll : twoCycle.PrintsAll :=
  printsAll_of_losesNothing twoCycle
    (fun n hn => DepFiles.dependsOn_of_mem_within (k := 3) (by revert n hn; decide))
    fun _ hc => allFor_sound (n := 40) (by decide +kernel) hc

section

open Sample

/-- Below `w`, the line of weights of `x` is `1 1 2`, and so is the link of `v`,
the parent of the cycle of `y` and `z`. -/
def sharedLine : DepFiles :=
  .ofTable [w, x, u, v, y, z]
    [(rootId, [required w]), (w, [recommended x, required v]),
      (x, [required u]), (v, [required y]),
      (y, [recommended z]), (z, [required y])]
    (by decide +kernel)

/-- The redirections to the two files fail, and `z` is lost. -/
theorem sharedLine_not_printsAll : sharedLine.AllReachable ∧ ¬ sharedLine.PrintsAll := by
  refine ⟨fun n hn => ?_, fun h => ?_⟩
  · exact DepFiles.dependsOn_of_mem_within (k := 4) (by revert n hn; decide)
  · obtain ⟨out, hout, -, hmem⟩ := h (runFor generateDependencyTree 60 sharedLine.start).dir
      ⟨_, steps_runFor 60 _, by decide +kernel, by decide +kernel, rfl⟩
    have hlist : (runFor generateDependencyTree 60 sharedLine.start).dir.list =
        some [u, x, y, v, w] := by decide +kernel
    rw [hlist] at hout
    cases hout
    have := (hmem z).mpr (by decide)
    revert this
    decide

end

end Jhalfs
