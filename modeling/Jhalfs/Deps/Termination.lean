import Mathlib.Algebra.BigOperators.Group.Finset.Piecewise
import Mathlib.Algebra.Order.BigOperators.Group.Finset
import Mathlib.Data.Multiset.UnionInter
import Jhalfs.Deps.Run

/-!
# The third pass terminates

A back-up erases a whole subtree and appends a line to a file that a caller is
still reading, so neither the number of nodes built nor the length of a file is
a measure. What decreases is a vector with one component for each active call,
the root first: the lines the call has not read yet, plus the lines of all nodes
that are not among it and its callers. An exchange moves one line from a node to
a call further out, so it leaves the components of the calls further out still
alone, and the call that exchanges leaves the waiting phase.

- `Level` is what the measure knows of an active call, and `levels` the active
  calls of a state.
- `lineCount` counts the lines of a node. A line that is both in a node's `.dep`
  file and still to be dealt with by its active call counts once, so the union of
  multisets is taken.
- `rank` is the vector, with as many components as there can be active calls
  (`Waits.depth_lt`), and `Smaller` the lexicographic order on it, which is well
  founded.
- `smaller_of_progress` and `smaller_of_exchange` are the two ways to become
  smaller: one call makes progress and no node gains a line, or one line goes
  from the call that makes progress to a call further out.
- `Inv.smaller_step`: **every step decreases the measure**.

So every run stops, with the value 0 by what the last file says of halted states
(`generateDependencyTree_returns_zero`), and every back-up is met on its cycle.
-/

namespace Jhalfs

open Machine

/-- What the measure knows of one active call: the entries it has not read, the
entries it has not dealt with, and its phase (2 waiting, 1 running, 0 returned). -/
structure Level where
  file : Id
  unread : List Entry
  pending : List Entry
  phase : Nat

/-- The files of some active calls. -/
def filesOf (ls : List Level) : List Id := ls.map Level.file

@[simp] theorem filesOf_nil : filesOf [] = [] := rfl

@[simp] theorem filesOf_append (ls ms : List Level) :
    filesOf (ls ++ ms) = filesOf ls ++ filesOf ms := List.map_append

@[simp] theorem filesOf_cons (l : Level) (ls : List Level) :
    filesOf (l :: ls) = l.file :: filesOf ls := rfl

/-- The entries that the active call on `n` has not dealt with. -/
def pendingOf (ls : List Level) (n : Id) : List Entry :=
  match ls.find? fun l => l.file == n with
  | some l => l.pending
  | none => []

/-- The lines of the node `n`, in its `.dep` file or in its active call. -/
def lineCount (d : Dir) (ls : List Level) (n : Id) : Nat :=
  ((d.dep n : Multiset Entry) ∪ (pendingOf ls n : Multiset Entry)).card

/-- The lines of the nodes that are not among the first `i + 1` active calls. -/
def outside (d : Dir) (ls : List Level) (i : Nat) : Nat :=
  ∑ n ∈ d.names.toFinset.filter (fun n => n ∉ filesOf (ls.take (i + 1))), lineCount d ls n

/-- The component of the active call number `i`; a missing call is the largest, so a
call that returns makes the vector larger only behind the place that counts. -/
def rankAt (d : Dir) (ls : List Level) (i : Nat) : WithTop Nat :=
  match ls[i]? with
  | some l => WithTop.some (3 * (l.unread.length + outside d ls i) + l.phase)
  | none => ⊤

/-! ## The active calls of a state -/

def waitingLevel (d : Dir) (x : Frame × Entry) : Level :=
  ⟨x.1.file, x.1.unread d, x.2 :: x.1.unread d, 2⟩

/-- The waiting calls, the root first. -/
def levelsOf (d : Dir) (cs : List (Frame × Entry)) : List Level :=
  (cs.map (waitingLevel d)).reverse

def topLevel (c : Config) : Level :=
  match c.ctl with
  | .run fr => ⟨fr.file, fr.unread c.dir, fr.unread c.dir, 1⟩
  | _ => ⟨calleeFile c.callers, [], [], 0⟩

/-- All active calls, the one that runs or has returned last. -/
def levels (c : Config) : List Level := levelsOf c.dir c.callers ++ [topLevel c]

/-- The measure: one component for each active call. A run has at most as many at a
time as there are packages, and the root. -/
def rank (G : DepFiles) (c : Config) : Fin (G.pkgs.length + 1) → WithTop Nat :=
  fun i => rankAt c.dir (levels c) i

/-- The order in which the measure decreases: lexicographic, the root first. It is
well founded, since the vectors have a fixed length. -/
def Smaller (G : DepFiles) : (Fin (G.pkgs.length + 1) → WithTop Nat) →
    (Fin (G.pkgs.length + 1) → WithTop Nat) → Prop :=
  Pi.Lex (· < ·) fun {_} => (· < ·)

@[simp] theorem length_levelsOf (d : Dir) (cs : List (Frame × Entry)) :
    (levelsOf d cs).length = cs.length := by simp [levelsOf]

theorem levelsOf_cons (d : Dir) (x : Frame × Entry) (cs : List (Frame × Entry)) :
    levelsOf d (x :: cs) = levelsOf d cs ++ [waitingLevel d x] := by simp [levelsOf]

theorem mem_filesOf_levelsOf {d : Dir} {cs : List (Frame × Entry)} {n : Id} :
    n ∈ filesOf (levelsOf d cs) ↔ ∃ y ∈ cs, y.1.file = n := by
  simp [filesOf, levelsOf, waitingLevel]

/-- The waiting calls only depend on the files they read. -/
theorem levelsOf_congr {d d' : Dir} {cs : List (Frame × Entry)}
    (h : ∀ y ∈ cs, d'.tree y.1.file = d.tree y.1.file) : levelsOf d' cs = levelsOf d cs := by
  rw [levelsOf, levelsOf, List.reverse_inj]
  refine List.map_congr_left fun y hy => ?_
  rw [waitingLevel, waitingLevel, Frame.unread, Frame.unread, Dir.entriesOf, Dir.entriesOf, h y hy]

/-! ## Comparing two states -/

theorem pendingOf_append {ls ms : List Level} {n : Id} :
    pendingOf (ls ++ ms) n = if n ∈ filesOf ls then pendingOf ls n else pendingOf ms n := by
  unfold pendingOf
  rw [List.find?_append]
  cases hfind : ls.find? fun l => l.file == n with
  | some l =>
    have hmem : n ∈ filesOf ls := by
      have hl := List.find?_some hfind
      exact List.mem_map.mpr ⟨l, List.mem_of_find?_eq_some hfind, by simpa using hl⟩
    rw [if_pos hmem]
    rfl
  | none =>
    have hmem : n ∉ filesOf ls := by
      intro hmem
      obtain ⟨l, hl, rfl⟩ := List.mem_map.mp hmem
      simpa using List.find?_eq_none.mp hfind l hl
    rw [if_neg hmem]
    rfl

theorem pendingOf_singleton {l : Level} {n : Id} :
    pendingOf [l] n = if l.file = n then l.pending else [] := by
  unfold pendingOf
  by_cases h : l.file = n <;> simp [h]

/-- A node has no more lines than before. -/
theorem lineCount_le {d d' : Dir} {ls ls' : List Level} {n : Id}
    (hdep : (d'.dep n : Multiset Entry) ≤ d.dep n)
    (hpend : (pendingOf ls' n : Multiset Entry) ≤
      (d.dep n : Multiset Entry) ∪ (pendingOf ls n : Multiset Entry)) :
    lineCount d' ls' n ≤ lineCount d ls n :=
  Multiset.card_le_card (Multiset.union_le (hdep.trans Multiset.le_union_left) hpend)

theorem outside_le {d d' : Dir} {ls ls' : List Level} {i : Nat} (hnames : d'.names = d.names)
    (hfiles : filesOf (ls'.take (i + 1)) = filesOf (ls.take (i + 1)))
    (hcount : ∀ n, n ∉ filesOf (ls.take (i + 1)) → lineCount d' ls' n ≤ lineCount d ls n) :
    outside d' ls' i ≤ outside d ls i := by
  unfold outside
  rw [hnames, hfiles]
  exact Finset.sum_le_sum fun n hn => hcount n (Finset.mem_filter.mp hn).2

theorem rankAt_of_getElem? {d : Dir} {ls : List Level} {i : Nat} {l : Level}
    (h : ls[i]? = some l) :
    rankAt d ls i = WithTop.some (3 * (l.unread.length + outside d ls i) + l.phase) := by
  rw [rankAt, h]

theorem smaller_of_rankAt {G : DepFiles} {c c' : Config} {i : Nat} (hi : i < G.pkgs.length + 1)
    (hle : ∀ j < i, rankAt c'.dir (levels c') j ≤ rankAt c.dir (levels c) j)
    (hlt : rankAt c'.dir (levels c') i < rankAt c.dir (levels c) i) :
    Smaller G (rank G c') (rank G c) :=
  lex_of_le_of_lt (i := ⟨i, hi⟩) (fun j hj => hle j hj) hlt

theorem getElem?_outer {ls base rest : List Level} {l : Level} (h : ls = base ++ l :: rest)
    {j : Nat} (hj : j < base.length) : ls[j]? = some base[j] := by
  rw [h, List.getElem?_append_left hj, List.getElem?_eq_getElem hj]

theorem getElem?_active {ls base rest : List Level} {l : Level} (h : ls = base ++ l :: rest)
    {i : Nat} (hi : base.length = i) : ls[i]? = some l := by
  rw [h, ← hi, List.getElem?_append_right (Nat.le_refl _), Nat.sub_self]
  rfl

section Compare

variable {G : DepFiles} {c c' : Config} {base rest rest' : List Level} {l l' : Level}

/-- One active call makes progress, the calls further out are as they were, and
no node has gained a line. -/
theorem smaller_of_progress (hc : levels c = base ++ l :: rest)
    (hc' : levels c' = base ++ l' :: rest') (hlen : base.length < G.pkgs.length + 1)
    (hnames : c'.dir.names = c.dir.names) (hfile : l'.file = l.file)
    (hcount : ∀ n, lineCount c'.dir (levels c') n ≤ lineCount c.dir (levels c) n)
    (hprogress : 3 * l'.unread.length + l'.phase < 3 * l.unread.length + l.phase) :
    Smaller G (rank G c') (rank G c) := by
  refine smaller_of_rankAt hlen (fun j hj => ?_) ?_
  · have hget := getElem?_outer hc hj
    have hget' := getElem?_outer hc' hj
    have hout := @outside_le _ _ (levels c) (levels c') j hnames (by
      rw [hc, hc', List.take_append_of_le_length hj, List.take_append_of_le_length hj])
      fun n _ => hcount n
    rw [rankAt_of_getElem? hget, rankAt_of_getElem? hget', WithTop.coe_le_coe]
    omega
  · have hget := getElem?_active hc rfl
    have hget' := getElem?_active hc' rfl
    have hout := @outside_le _ _ (levels c) (levels c') base.length hnames (by
      rw [hc, hc']
      simp [List.take_append, hfile]) fun n _ => hcount n
    rw [rankAt_of_getElem? hget, rankAt_of_getElem? hget', WithTop.coe_lt_coe]
    omega

end Compare

/-! ## How deep the calls nest -/

theorem Waits.nodup_files {d : Dir} {cs : List (Frame × Entry)}
    (hw : Waits d cs) : (cs.map fun y => y.1.file).Nodup := by
  induction cs with
  | nil => exact List.nodup_nil
  | cons x cs ih =>
    refine List.nodup_cons.mpr ⟨fun hmem => ?_, ih hw.2.2⟩
    obtain ⟨y, hy, heq⟩ := List.mem_map.mp hmem
    exact @Waits.file_ne x.1 x.2 cs d hw y hy heq

/-- A node with a call below the callers `cs` leaves room for it in the
measure. -/
theorem Waits.depth_lt {G : DepFiles} {d : Dir} {cs : List (Frame × Entry)}
    (hw : Waits d cs) (hd : DirOk G d) {x : Id} (hx : d.linkOf x = some (calleeLink cs)) :
    cs.length < G.pkgs.length + 1 := by
  have hmem : ∀ {n l}, d.linkOf n = some l → n ∈ d.names := by
    intro n l hn
    obtain ⟨f, hf, -⟩ := linkOf_eq_some.mp hn
    exact hd.linked.mem n f hf
  have hnodup : (x :: cs.map fun y => y.1.file).Nodup := by
    refine List.nodup_cons.mpr ⟨fun hxm => ?_, hw.nodup_files⟩
    obtain ⟨y, hy, rfl⟩ := List.mem_map.mp hxm
    rw [hw.linkOf hy] at hx
    exact hw.rootlink_ne hy (Option.some.inj hx)
  have hsub : (x :: cs.map fun y => y.1.file) ⊆ d.names := by
    intro n hn
    rcases List.mem_cons.mp hn with rfl | hn
    · exact hmem hx
    · obtain ⟨y, hy, rfl⟩ := List.mem_map.mp hn
      exact hmem (hw.linkOf hy)
  have := (hnodup.subperm hsub).length_le
  rw [List.length_cons, List.length_map, hd.names, List.length_cons] at this
  omega

/-! ## The moves -/

section Moves

variable {G : DepFiles} {strict : Prop} {c c' : Config} {fr : Frame} {e : Entry}
  {cs : List (Frame × Entry)}

theorem levels_run (hctl : c.ctl = .run fr) :
    levels c = levelsOf c.dir c.callers ++
      [⟨fr.file, fr.unread c.dir, fr.unread c.dir, 1⟩] := by
  rw [levels, topLevel, hctl]

theorem levels_ret {p2 : Nat} (hctl : c.ctl = .ret p2) (hcs : c.callers = (fr, e) :: cs) :
    levels c = levelsOf c.dir cs ++ [waitingLevel c.dir (fr, e), ⟨e.id, [], [], 0⟩] := by
  rw [levels, topLevel, hctl, hcs, levelsOf_cons, List.append_assoc]
  rfl

/-- The moves that leave one call in place of another on the same file, or of it
and its callee. -/
theorem smaller_of_top {l : Level} {rest : List Level}
    (hc : levels c = levelsOf c.dir cs ++ l :: rest) (hlen : cs.length < G.pkgs.length + 1)
    (hcs : c'.callers = cs) (htree : ∀ y ∈ cs, c'.dir.tree y.1.file = c.dir.tree y.1.file)
    (hnames : c'.dir.names = c.dir.names) (hdep : ∀ n, (c'.dir.dep n).Sublist (c.dir.dep n))
    (hfile : (topLevel c').file = l.file) (hpend : (topLevel c').pending.Sublist l.pending)
    (hprogress : 3 * (topLevel c').unread.length + (topLevel c').phase <
      3 * l.unread.length + l.phase) :
    Smaller G (rank G c') (rank G c) := by
  have hc' : levels c' = levelsOf c.dir cs ++ [topLevel c'] := by
    rw [levels, hcs, levelsOf_congr htree]
  refine smaller_of_progress hc hc' (by rwa [length_levelsOf]) hnames hfile (fun n => ?_)
    hprogress
  refine lineCount_le (Multiset.coe_le.mpr (hdep n).subperm)
    (le_trans ?_ Multiset.le_union_right)
  rw [hc, hc', Multiset.coe_le, pendingOf_append, pendingOf_append]
  split
  · exact List.Subperm.refl _
  · rw [pendingOf_singleton, show l :: rest = [l] ++ rest from rfl, pendingOf_append,
      pendingOf_singleton, hfile]
    by_cases hn : l.file = n
    · rw [if_pos hn, if_pos (by simp [filesOf, hn]), if_pos hn]
      exact hpend.subperm
    · rw [if_neg hn]
      exact List.nil_subperm

theorem Inv.depth_run (h : Inv G strict c) (hctl : c.ctl = .run fr) :
    c.callers.length < G.pkgs.length + 1 := by
  obtain ⟨hpath, t, T, hrun⟩ := h.running hctl
  refine h.waiting.depth_lt h.dir (x := fr.file) ?_
  rw [← hpath.rootlink]
  exact linkOf_eq_some.mpr ⟨t, hrun.tree, hrun.link⟩

theorem Inv.depth_ret (h : Inv G strict c) (hcs : c.callers = (fr, e) :: cs) :
    cs.length < G.pkgs.length + 1 := by
  have hw := h.waits hcs
  refine hw.2.2.depth_lt h.dir (x := fr.file) ?_
  rw [← hw.1.rootlink]
  exact hw.linkOf List.mem_cons_self

/-- The frame reads one more entry and goes on. -/
theorem Inv.smaller_read (h : Inv G strict c) (hctl : c.ctl = .run fr)
    (he : (c.dir.entriesOf fr.file)[fr.count]? = some e) {fr' : Frame}
    (hctl' : c'.ctl = .run fr') (hfile : fr'.file = fr.file) (hcount : fr'.count = fr.count + 1)
    (hcs : c'.callers = c.callers) (hnames : c'.dir.names = c.dir.names)
    (htree : ∀ n, c.dir.tree n ≠ none → c'.dir.tree n = c.dir.tree n)
    (hdep : ∀ n, (c'.dir.dep n).Sublist (c.dir.dep n)) :
    Smaller G (rank G c') (rank G c) := by
  obtain ⟨hpath, t, T, hrun⟩ := h.running hctl
  have hunread : fr'.unread c'.dir = fr.next.unread c.dir := by
    rw [Frame.unread, Frame.unread, Dir.entriesOf, Dir.entriesOf, hfile, hcount,
      htree fr.file (by rw [hrun.tree]; exact Option.some_ne_none t)]
    rfl
  have htop : topLevel c' = ⟨fr.file, fr.next.unread c.dir, fr.next.unread c.dir, 1⟩ := by
    rw [topLevel, hctl']
    dsimp only
    rw [hfile, hunread]
  refine smaller_of_top (levels_run hctl) (h.depth_run hctl) hcs
    (fun y hy => htree _ (h.waiting.tree_ne_none hy)) hnames hdep (by rw [htop]) ?_ ?_
  · rw [htop, Frame.unread_next he]
    exact List.sublist_cons_self _ _
  · rw [htop, Frame.unread_next he, List.length_cons]
    dsimp only
    omega

/-- The frame stops with a return value. -/
theorem Inv.smaller_stop (h : Inv G strict c) (hctl : c.ctl = .run fr) {p2 : Nat}
    (hctl' : c'.ctl = .ret p2) (hcs : c'.callers = c.callers) (hnames : c'.dir.names = c.dir.names)
    (htree : ∀ y ∈ c.callers, c'.dir.tree y.1.file = c.dir.tree y.1.file)
    (hdep : c'.dir.dep = c.dir.dep) : Smaller G (rank G c') (rank G c) := by
  have htop : topLevel c' = ⟨calleeFile c.callers, [], [], 0⟩ := by
    rw [topLevel, hctl', hcs]
  refine smaller_of_top (levels_run hctl) (h.depth_run hctl) hcs htree hnames
    (fun n => by rw [hdep]) ?_ ?_ ?_
  · rw [htop]
    exact (h.running hctl).1.file.symm
  · rw [htop]
    exact List.nil_sublist _
  · rw [htop, List.length_nil]
    dsimp only
    omega

theorem Inv.smaller_call (h : Inv G strict c) (hctl : c.ctl = .run fr)
    (he : (c.dir.entriesOf fr.file)[fr.count]? = some e) (hnew : c.dir.tree e.id = none) :
    Smaller G
      (rank G
        { c with
          dir := c.dir.addChild fr e
          ctl := .run (Frame.open e.id (childFile c.dir fr e))
          callers := (fr.next, e) :: c.callers }) (rank G c) := by
  obtain ⟨hpath, t, T, hrun⟩ := h.running hctl
  have hsame : ∀ n, c.dir.tree n ≠ none → (c.dir.addChild fr e).tree n = c.dir.tree n := by
    intro n hn
    refine setTree_tree_of_ne ?_
    rintro rfl
    exact hn hnew
  have hunread : fr.next.unread (c.dir.addChild fr e) = fr.next.unread c.dir := by
    rw [Frame.unread, Frame.unread, Dir.entriesOf, Dir.entriesOf,
      hsame fr.next.file (by
        show c.dir.tree fr.file ≠ none
        rw [hrun.tree]
        exact Option.some_ne_none t)]
  -- the new call starts with all its lines unread
  have hentries : (Frame.open e.id (childFile c.dir fr e)).unread (c.dir.addChild fr e) =
      c.dir.dep e.id := by
    show ((c.dir.addChild fr e).entriesOf e.id).drop 0 = c.dir.dep e.id
    rw [Dir.entriesOf, Dir.addChild, setTree_tree_self]
    exact childFile_entries
  -- the frame waits with one line less to read
  have hc : levels c = levelsOf c.dir c.callers ++
      [⟨fr.file, e :: fr.next.unread c.dir, e :: fr.next.unread c.dir, 1⟩] := by
    rw [levels_run hctl, Frame.unread_next he]
  have hc' : levels
      { c with
        dir := c.dir.addChild fr e
        ctl := .run (Frame.open e.id (childFile c.dir fr e))
        callers := (fr.next, e) :: c.callers } = levelsOf c.dir c.callers ++
      [⟨fr.file, fr.next.unread c.dir, e :: fr.next.unread c.dir, 2⟩] ++
      [⟨e.id, c.dir.dep e.id, c.dir.dep e.id, 1⟩] := by
    rw [levels_run rfl, levelsOf_cons, hentries,
      levelsOf_congr fun y hy => hsame y.1.file (h.waiting.tree_ne_none hy), waitingLevel, hunread]
    rfl
  have hpend : ∀ n, pendingOf (levelsOf c.dir c.callers ++
      [⟨fr.file, fr.next.unread c.dir, e :: fr.next.unread c.dir, 2⟩]) n =
        pendingOf (levels c) n := by
    intro n
    rw [hc, pendingOf_append, pendingOf_append, pendingOf_singleton, pendingOf_singleton]
  refine smaller_of_progress hc (hc'.trans (List.append_assoc _ [_] [_]))
    (by rw [length_levelsOf]; exact h.depth_run hctl) rfl rfl (fun n => ?_) ?_
  · refine lineCount_le (le_refl _) ?_
    rw [hc', pendingOf_append]
    split
    · rw [hpend n]
      exact Multiset.le_union_right
    · rw [pendingOf_singleton]
      split
      · next hid =>
        rw [← hid]
        exact Multiset.le_union_left
      · exact Multiset.zero_le _
  · rw [List.length_cons]
    dsimp only
    omega

/-! ## The exchange -/

/-- The calls after a line has been given to the file `p`. -/
def Level.grow (p : Id) (e : Entry) (l : Level) : Level :=
  if l.file = p then { l with unread := l.unread ++ [e], pending := l.pending ++ [e] } else l

theorem Level.grow_file (p : Id) (e : Entry) (l : Level) : (l.grow p e).file = l.file := by
  unfold Level.grow
  split <;> rfl

theorem Level.grow_phase (p : Id) (e : Entry) (l : Level) : (l.grow p e).phase = l.phase := by
  unfold Level.grow
  split <;> rfl

theorem filesOf_map_grow (p : Id) (e : Entry) (ls : List Level) :
    filesOf (ls.map (Level.grow p e)) = filesOf ls := by
  rw [filesOf, filesOf, List.map_map]
  exact List.map_congr_left fun l _ => Level.grow_file p e l

theorem pendingOf_map_grow {p : Id} {ls : List Level} {n : Id} (hn : n ∈ filesOf ls) :
    pendingOf (ls.map (Level.grow p e)) n =
      if n = p then pendingOf ls n ++ [e] else pendingOf ls n := by
  have hcomp : ((fun l : Level => l.file == n) ∘ Level.grow p e) = fun l => l.file == n := by
    funext l
    show ((l.grow p e).file == n) = (l.file == n)
    rw [Level.grow_file]
  unfold pendingOf
  rw [List.find?_map, hcomp]
  cases hfind : ls.find? fun l => l.file == n with
  | none =>
    obtain ⟨l, hl, rfl⟩ := List.mem_map.mp hn
    exact absurd (by simp) (List.find?_eq_none.mp hfind l hl)
  | some l =>
    have hl : l.file = n := by simpa using List.find?_some hfind
    show (l.grow p e).pending = if n = p then l.pending ++ [e] else l.pending
    rw [Level.grow, hl]
    split <;> rfl

/-- Removing a pending line, which also leaves the `.dep` file, takes one line
from the node. -/
theorem card_union_erase {D U : List Entry} :
    ((D.filter fun x => !x.contains e.id : Multiset Entry) ∪ (U : Multiset Entry)).card + 1 ≤
      ((D : Multiset Entry) ∪ ((e :: U : List Entry) : Multiset Entry)).card := by
  rw [← Multiset.card_cons e]
  refine Multiset.card_le_card (Multiset.le_iff_count.mpr fun x => ?_)
  by_cases hx : x = e
  · subst hx
    have hnone : (D.filter fun y => !y.contains x.id).count x = 0 := by
      rw [List.count_eq_zero]
      intro hmem
      have := (List.mem_filter.mp hmem).2
      rw [Entry.contains_self] at this
      cases this
    rw [Multiset.count_cons_self, Multiset.count_union, Multiset.count_union, Multiset.coe_count,
      Multiset.coe_count, Multiset.coe_count, Multiset.coe_count, hnone, List.count_cons_self]
    omega
  · have hle :=
      List.Sublist.count_le x (List.filter_sublist (p := fun y => !y.contains e.id) (l := D))
    rw [Multiset.count_cons_of_ne hx, Multiset.count_union, Multiset.count_union,
      Multiset.coe_count, Multiset.coe_count, Multiset.coe_count, Multiset.coe_count,
      List.count_cons_of_ne (Ne.symm hx)]
    omega

/-- A line given to both the file and the pending entries counts once. -/
theorem card_union_append {D T : List Entry} :
    (((D ++ [e] : List Entry) : Multiset Entry) ∪ ((T ++ [e] : List Entry) : Multiset Entry)).card =
      ((D : Multiset Entry) ∪ (T : Multiset Entry)).card + 1 := by
  rw [← Multiset.coe_add, ← Multiset.coe_add, ← Multiset.union_add_distrib, Multiset.card_add]
  rfl

/-- One line has gone from `f` to `p`, as the calls before `i` see it. -/
theorem outside_exchange {d d' : Dir} {ls ls' : List Level} {i : Nat} {f p : Id}
    (hnames : d'.names = d.names)
    (hfiles : filesOf (ls'.take (i + 1)) = filesOf (ls.take (i + 1))) (hf : f ∈ d.names)
    (hfi : f ∉ filesOf (ls.take (i + 1)))
    (hcount : ∀ n, lineCount d' ls' n + (if n = f then 1 else 0) ≤
      lineCount d ls n + if n = p then 1 else 0) :
    outside d' ls' i + 1 ≤
      outside d ls i + if p ∈ filesOf (ls.take (i + 1)) then 0 else 1 := by
  unfold outside
  rw [hnames, hfiles]
  have hsum := Finset.sum_le_sum fun n
    (_ : n ∈ d.names.toFinset.filter fun n => n ∉ filesOf (ls.take (i + 1))) => hcount n
  rw [Finset.sum_add_distrib, Finset.sum_add_distrib, Finset.sum_ite_eq', Finset.sum_ite_eq',
    if_pos (by simp [hf, hfi])] at hsum
  refine hsum.trans (Nat.add_le_add_left ?_ _)
  by_cases hp : p ∈ filesOf (ls.take (i + 1))
  · simp [hp]
  · rw [if_neg hp]
    split <;> omega

/-- The call `l` makes progress and loses a line to the call on `p` further
out. -/
theorem smaller_of_exchange {base rest rest' : List Level} {l l' : Level} {p : Id}
    (hc : levels c = base ++ l :: rest) (hc' : levels c' = base.map (Level.grow p e) ++ l' :: rest')
    (hlen : base.length < G.pkgs.length + 1) (hnames : c'.dir.names = c.dir.names)
    (hfile : l'.file = l.file) (hl : l.file ∈ c.dir.names) (hbase : l.file ∉ filesOf base)
    (hp : p ∈ filesOf base)
    (hcount : ∀ n, lineCount c'.dir (levels c') n + (if n = l.file then 1 else 0) ≤
      lineCount c.dir (levels c) n + if n = p then 1 else 0)
    (hprogress : 3 * l'.unread.length + l'.phase < 3 * l.unread.length + l.phase) :
    Smaller G (rank G c') (rank G c) := by
  refine smaller_of_rankAt hlen (fun j hj => ?_) ?_
  · have hget := getElem?_outer hc hj
    have hget' : (levels c')[j]? = some (base[j].grow p e) := by
      rw [getElem?_outer hc' (by rwa [List.length_map]), List.getElem_map]
    have htake : filesOf ((levels c).take (j + 1)) = filesOf (base.take (j + 1)) := by
      rw [hc, List.take_append_of_le_length hj]
    have htake' : filesOf ((levels c').take (j + 1)) = filesOf (base.take (j + 1)) := by
      rw [hc', List.take_append_of_le_length (by rwa [List.length_map]), ← List.map_take,
        filesOf_map_grow]
    have hsub : filesOf (base.take (j + 1)) ⊆ filesOf base :=
      List.map_subset _ (List.take_subset _ _)
    have hout := outside_exchange (i := j) hnames (htake'.trans htake.symm) hl
      (fun hmem => hbase (hsub (htake ▸ hmem))) hcount
    have hself : base[j].file ∈ filesOf ((levels c).take (j + 1)) := by
      rw [htake]
      refine List.mem_map.mpr ⟨_, ?_, rfl⟩
      rw [List.mem_take_iff_getElem]
      exact ⟨j, by omega, rfl⟩
    -- the line is counted once: as unread by the call on `p`, or outside the calls before it
    have hunread : (base[j].grow p e).unread.length +
        (if p ∈ filesOf ((levels c).take (j + 1)) then 0 else 1) ≤ base[j].unread.length + 1 := by
      unfold Level.grow
      by_cases hfp : base[j].file = p
      · rw [if_pos hfp, if_pos (hfp ▸ hself), List.length_append]
        rfl
      · rw [if_neg hfp]
        split <;> omega
    rw [rankAt_of_getElem? hget, rankAt_of_getElem? hget', WithTop.coe_le_coe, Level.grow_phase]
    omega
  · have hget := getElem?_active hc rfl
    have hget' := getElem?_active hc' (List.length_map _)
    have htake : filesOf ((levels c).take (base.length + 1)) = filesOf base ++ [l.file] := by
      rw [hc]
      simp [List.take_append, List.take_of_length_le]
    have htake' : filesOf ((levels c').take (base.length + 1)) = filesOf base ++ [l.file] := by
      rw [hc']
      simp [List.take_append, hfile, List.take_of_length_le, filesOf_map_grow]
    have hout := outside_le (i := base.length) hnames (htake'.trans htake.symm) fun n hn => by
      have hnp : n ≠ p := by
        rintro rfl
        refine hn ?_
        rw [htake]
        exact List.mem_append_left _ hp
      have := hcount n
      rw [if_neg hnp] at this
      omega
    rw [rankAt_of_getElem? hget, rankAt_of_getElem? hget', WithTop.coe_lt_coe]
    omega

/-- The parent has one more line to read, and the calls further out none. -/
theorem Waits.levelsOf_exchange {d : Dir} (hw : Waits d ((fr, e) :: cs)) (p : Id) :
    levelsOf ((d.detach fr e).appendLine p e) cs = (levelsOf d cs).map (Level.grow p e) := by
  rw [levelsOf, levelsOf, List.map_reverse, List.map_map, List.reverse_inj]
  refine List.map_congr_left fun y hy => ?_
  show waitingLevel _ y = (waitingLevel d y).grow p e
  have hy' := List.mem_cons_of_mem (fr, e) hy
  obtain ⟨t, T, outer, -, -, hT⟩ := hw.onPath hy'
  have htree : (d.detach fr e).tree y.1.file = some t := by
    rw [detach_tree, hT.link]
    exact ⟨hT.tree, hw.not_below hy'⟩
  by_cases hyp : y.1.file = p
  · have hcount : y.1.count ≤ t.entries.length := by
      have := hT.at_entry.length_le
      rw [List.length_append, List.length_map, List.length_singleton, hT.count] at this
      exact this
    have hread : y.1.unread ((d.detach fr e).appendLine p e) = y.1.unread d ++ [e] := by
      rw [Frame.unread, Frame.unread, Dir.entriesOf, Dir.entriesOf, ← hyp,
        appendLine_tree_self htree, hT.tree]
      exact List.drop_append_of_le_length hcount
    rw [waitingLevel, hread, Level.grow, if_pos (by exact hyp)]
    rfl
  · have hread : y.1.unread ((d.detach fr e).appendLine p e) = y.1.unread d := by
      rw [Frame.unread, Frame.unread, Dir.entriesOf, Dir.entriesOf, appendLine_tree_of_ne hyp,
        htree, hT.tree]
    rw [waitingLevel, hread, Level.grow, if_neg (by exact hyp)]
    rfl

/-- The exchange moves one line, from the frame's file to the parent's. -/
theorem lineCount_exchange {d : Dir} {base : List Level} {p m : Id} {U : List Entry}
    (hbase : fr.file ∉ filesOf base) (hp : p ∈ filesOf base) (n : Id) :
    lineCount ((d.detach fr e).appendLine p e)
        (base.map (Level.grow p e) ++ [⟨fr.file, U, U, 1⟩]) n +
          (if n = fr.file then 1 else 0) ≤
      lineCount d (base ++ [⟨fr.file, U, e :: U, 2⟩, ⟨m, [], [], 0⟩]) n +
        if n = p then 1 else 0 := by
  unfold lineCount
  rw [pendingOf_append, pendingOf_append, filesOf_map_grow]
  by_cases hn : n ∈ filesOf base
  · have hnF : n ≠ fr.file := by
      rintro rfl
      exact hbase hn
    rw [if_pos hn, if_pos hn, pendingOf_map_grow hn, if_neg hnF]
    by_cases hnp : n = p
    · subst hnp
      rw [if_pos rfl, if_pos rfl, appendLine_dep_self, card_union_append, detach_dep_of_ne hnF]
    · rw [if_neg hnp, if_neg hnp, appendLine_dep_of_ne hnp, detach_dep_of_ne hnF]
  · have hnp : n ≠ p := by
      rintro rfl
      exact hn hp
    rw [if_neg hn, if_neg hn, if_neg hnp, appendLine_dep_of_ne hnp, pendingOf_singleton]
    by_cases hnF : n = fr.file
    · subst hnF
      have hpend : pendingOf [⟨fr.file, U, e :: U, 2⟩, ⟨m, [], [], 0⟩] fr.file = e :: U := by
        simp [pendingOf]
      rw [if_pos rfl, if_pos rfl, hpend, Dir.detach, deleteDep_dep_self]
      exact card_union_erase
    · rw [if_neg hnF, if_neg (Ne.symm hnF), detach_dep_of_ne hnF]
      refine Nat.add_le_add_right (Multiset.card_le_card ?_) 0
      exact Multiset.union_le Multiset.le_union_left (Multiset.zero_le _)

theorem Inv.smaller_exchange (h : Inv G strict c) {p2 : Nat} (hctl : c.ctl = .ret p2)
    (h0 : p2 ≠ 0) (hcs : c.callers = (fr, e) :: cs) :
    Smaller G
      (rank G
        { c with
          dir := Jhalfs.exchange c.dir c.parentNode fr e
          ctl := .run (fr.remove e)
          callers := cs }) (rank G c) := by
  have hw := h.waits hcs
  have hlevels := levels_ret hctl hcs
  have hlen := h.depth_ret hcs
  obtain ⟨f, hf, hfl⟩ := linkOf_eq_some.mp (hw.linkOf List.mem_cons_self)
  have hfile : (c.dir.detach fr e).tree fr.file = c.dir.tree fr.file := by
    rw [hf, detach_tree, hfl]
    exact ⟨hf, hw.not_below List.mem_cons_self⟩
  rcases h.exchange_eq hctl h0 hcs with ⟨-, heq⟩ | ⟨x, hx, -, heq⟩
  · -- no parent: the line is lost
    rw [heq]
    have hread : (fr.remove e).unread (c.dir.detach fr e) = fr.unread c.dir := by
      rw [Frame.unread, Frame.unread, Dir.entriesOf, Dir.entriesOf, Frame.remove, hfile]
    refine smaller_of_top hlevels hlen rfl (fun y hy => ?_) rfl (fun n => ?_) rfl ?_ ?_
    · obtain ⟨g, hg, hgl⟩ := linkOf_eq_some.mp (hw.linkOf (List.mem_cons_of_mem _ hy))
      rw [hg, detach_tree, hgl]
      exact ⟨hg, hw.not_below (List.mem_cons_of_mem _ hy)⟩
    · by_cases hn : n = fr.file
      · subst hn
        show ((c.dir.detach fr e).dep fr.file).Sublist _
        rw [Dir.detach, deleteDep_dep_self]
        exact List.filter_sublist
      · show ((c.dir.detach fr e).dep n).Sublist _
        rw [detach_dep_of_ne hn]
    · show ((fr.remove e).unread (c.dir.detach fr e)).Sublist (e :: fr.unread c.dir)
      rw [hread]
      exact List.sublist_cons_self _ _
    · show 3 * ((fr.remove e).unread (c.dir.detach fr e)).length + 1 <
        3 * (fr.unread c.dir).length + 2
      rw [hread]
      omega
  · rw [heq]
    have hne : fr.file ≠ x.1.file := (hw.file_ne hx).symm
    -- the line goes to an outer file, so this one reads on as before
    have hread : (fr.remove e).unread ((c.dir.detach fr e).appendLine x.1.file e) =
        fr.unread c.dir := by
      rw [Frame.unread, Frame.unread, Dir.entriesOf, Dir.entriesOf, Frame.remove,
        appendLine_tree_of_ne hne, hfile]
    have hbase : fr.file ∉ filesOf (levelsOf c.dir cs) := by
      rw [mem_filesOf_levelsOf]
      rintro ⟨y, hy, hyf⟩
      exact hw.file_ne hy hyf
    have hp : x.1.file ∈ filesOf (levelsOf c.dir cs) := mem_filesOf_levelsOf.mpr ⟨x, hx, rfl⟩
    have hlevels' : levels
        { c with
          dir := (c.dir.detach fr e).appendLine x.1.file e
          ctl := .run (fr.remove e)
          callers := cs } = (levelsOf c.dir cs).map (Level.grow x.1.file e) ++
        [⟨fr.file, fr.unread c.dir, fr.unread c.dir, 1⟩] := by
      rw [levels_run rfl, hw.levelsOf_exchange, hread]
      rfl
    refine smaller_of_exchange hlevels hlevels' (by rwa [length_levelsOf]) rfl rfl
      (h.dir.linked.mem _ f hf) hbase hp (fun n => ?_) ?_
    · rw [hlevels, hlevels']
      exact lineCount_exchange hbase hp n
    · show 3 * (fr.unread c.dir).length + 1 < 3 * (fr.unread c.dir).length + 2
      omega

/-- **Every step decreases the measure.** Most steps make one call progress; an exchange also
gives a line to a call further out, and leaves those beyond it alone. -/
theorem Inv.smaller_step (h : Inv G strict c) (hstep : generateDependencyTree c = some c') :
    Smaller G (rank G c') (rank G c) := by
  cases move_of_step hstep with
  | finish fr hctl hend =>
    exact h.smaller_stop hctl rfl rfl (cleanTree_names fr)
      (fun y hy => cleanTree_tree_of_ne (h.file_ne_running hctl hy)) (cleanTree_dep fr)
  | quit fr e other hctl he hother hnil =>
    exact absurd hnil (h.dir.linked.nonempty _ other hother)
  | prune fr e other hctl he hother hnil hcirc hp =>
    refine h.smaller_read hctl he rfl rfl rfl rfl rfl (fun n _ => rfl) fun n => ?_
    by_cases hn : n = fr.file
    · subst hn
      show ((c.dir.deleteDep fr.file e.id).dep fr.file).Sublist _
      rw [deleteDep_dep_self]
      exact List.filter_sublist
    · show ((c.dir.deleteDep fr.file e.id).dep n).Sublist _
      rw [deleteDep_dep_of_ne hn]
  | backUp fr e other hctl he hother hnil hcirc hp =>
    exact h.smaller_stop hctl rfl rfl rfl (fun y _ => rfl) rfl
  | skip fr e other hctl he hother hnil hcirc =>
    exact h.smaller_read hctl he rfl rfl rfl rfl rfl (fun n _ => rfl) fun n => List.Sublist.refl _
  | call fr e hctl he hnew hdep => exact h.smaller_call hctl he hnew
  | leaf fr e hctl he hnew hdep =>
    refine h.smaller_read hctl he rfl rfl rfl rfl rfl (fun n hn => ?_) fun n => List.Sublist.refl _
    refine setTree_tree_of_ne ?_
    rintro rfl
    exact hn hnew
  | resume fr e cs hctl hcs =>
    refine smaller_of_top (levels_ret hctl hcs) (h.depth_ret hcs) rfl (fun y _ => rfl) rfl
      (fun n => List.Sublist.refl _) rfl (List.sublist_cons_self _ _) ?_
    show 3 * (fr.unread c.dir).length + 1 < 3 * (fr.unread c.dir).length + 2
    omega
  | exchange fr e cs p2 hctl h0 hp hcs => exact h.smaller_exchange hctl h0 hcs
  | popUp fr e cs p2 hctl h0 hp hcs =>
    have hw := h.waits hcs
    -- the caller is dropped, and its level has nothing left to read
    have htop : topLevel { c with callers := cs } = ⟨calleeFile cs, [], [], 0⟩ := by
      rw [topLevel, hctl]
    refine smaller_of_top (levels_ret hctl hcs) (h.depth_ret hcs) rfl (fun y _ => rfl) rfl
      (fun n => List.Sublist.refl _) ?_ ?_ ?_
    · rw [htop]
      exact hw.1.file.symm
    · rw [htop]
      exact List.nil_sublist _
    · rw [htop]
      show 3 * 0 + 0 < 3 * (fr.unread c.dir).length + 2
      omega

end Moves

/-! ## Termination -/

/-- The back-up with the value `p2`, from the frame `fr` of `c` to the state
`c'`, is met on the cycle it found: the cycle is closed by the next entry of
`fr`, its nodes are those on the path from the entry's node to `fr`, and a
caller `a` among them, the first whose edge has the value, does the exchange. -/
def MetOnCycle (c : Config) (fr : Frame) (p2 : Nat) (c' : Config) : Prop :=
  ∃ e other inner a ea outer,
    (c.dir.entriesOf fr.file)[fr.count]? = some e ∧ c.dir.tree e.id = some other ∧
      other.link <+: a.rootlink ∧ a.rootlink <+: fr.rootlink ∧
      c.dir.linkOf a.file = some a.rootlink ∧
      c.callers = inner ++ (a, ea) :: outer ∧ ea.prio.val = p2 ∧
      (∀ x ∈ inner, x.2.prio.val ≠ p2) ∧
      Steps generateDependencyTree c' { c' with callers := (a, ea) :: outer } ∧
      generateDependencyTree { c' with callers := (a, ea) :: outer } =
        some
          { c' with
            dir := exchange c'.dir c'.parentNode a ea
            ctl := .run (a.remove ea)
            callers := outer }

theorem Inv.metOnCycle {G : DepFiles} {strict : Prop} {c c' : Config} {fr : Frame} {p2 : Nat}
    (h : Inv G strict c) (hctl : c.ctl = .run fr) (hstep : generateDependencyTree c = some c')
    (hctl' : c'.ctl = .ret p2) (h0 : p2 ≠ 0) : MetOnCycle c fr p2 c' := by
  cases move_of_step hstep with
  | backUp fr' e other hrun he hother hnil hcirc hlow =>
    rw [hctl] at hrun
    cases hrun
    cases hctl'
    obtain ⟨hpath, -⟩ := h.running hctl
    obtain ⟨inner, a, ea, outer, hsplit, hlen, hp, hinner, hsteps⟩ :=
      BackingUp.absorbed (c := c.backUp fr other) h0 rfl rfl h.waiting
        (h.starts_backUp hctl hother hcirc h0)
    have hmem : (a, ea) ∈ (c.backUp fr other).callers := by
      rw [hsplit]
      exact List.mem_append_right _ List.mem_cons_self
    have hpre : a.rootlink <+: fr.rootlink := by
      rw [hpath.rootlink]
      exact h.waiting.rootlink_above hmem
    refine ⟨e, other, inner, a, ea, outer, he, hother,
      List.prefix_of_prefix_length_le hcirc hpre hlen, hpre, h.waiting.linkOf hmem, hsplit, hp,
      fun x hx => (hinner x hx).1, hsteps, ?_⟩
    unfold generateDependencyTree
    dsimp only
    rw [if_neg h0, if_pos hp.symm]
    rfl
  | finish fr' hrun hend =>
    cases hctl'
    exact absurd rfl h0
  | quit => cases hctl'
  | prune => cases hctl'
  | skip => cases hctl'
  | call => cases hctl'
  | leaf => cases hctl'
  | resume fr' e cs hret =>
    rw [hctl] at hret
    cases hret
  | exchange fr' e cs p2 hret =>
    rw [hctl] at hret
    cases hret
  | popUp fr' e cs p2 hret =>
    rw [hctl] at hret
    cases hret

/-- The pass stops. -/
theorem exists_halted_start (G : DepFiles) :
    ∃ c, G.Reaches c ∧ Halted generateDependencyTree c :=
  exists_halted (lex_wellFounded (G.pkgs.length + 1) (WithTop Nat)) (rank G) (P := Inv G False)
    (fun _ _ h hstep => h.step (fun hf => hf.elim) hstep)
    (fun _ _ h hstep => h.smaller_step hstep) (Inv.start G False)

/-- Some run ends with the value 0. -/
theorem exists_returns (G : DepFiles) : ∃ d, G.Returns d := by
  obtain ⟨c, hc, hhalt⟩ := exists_halted_start G
  obtain ⟨hctl, hcs⟩ := (inv_of_reaches hc).of_halted hhalt
  exact ⟨c.dir, c, hc, hctl, hcs, rfl⟩

/-- **Termination without an escaping back-up**: the top-level call returns 0,
it cannot stop in any other way, and every back-up is met by a caller on the
cycle that it found. -/
theorem generateDependencyTree_returns_zero (G : DepFiles) :
    (∃ d, G.Returns d) ∧
      (∀ c, G.Reaches c → Halted generateDependencyTree c →
        c.ctl = .ret 0 ∧ c.callers = []) ∧
      ∀ c c' fr p2, G.Reaches c → c.ctl = .run fr → generateDependencyTree c = some c' →
        c'.ctl = .ret p2 → p2 ≠ 0 → MetOnCycle c fr p2 c' := by
  have hstop : ∀ c, G.Reaches c → Halted generateDependencyTree c →
      c.ctl = .ret 0 ∧ c.callers = [] := fun c hc hhalt => (inv_of_reaches hc).of_halted hhalt
  exact ⟨exists_returns G, hstop, fun c c' fr p2 hc hctl hstep hctl' h0 =>
    (inv_of_reaches hc).metOnCycle hctl hstep hctl' h0⟩

end Jhalfs
