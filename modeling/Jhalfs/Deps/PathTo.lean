import Jhalfs.Base.Search
import Jhalfs.Deps.Files

/-!
# `path_to`

`path_to` looks for a path between two nodes over edges up to a weight
(BLFS/libs/func_dependencies:189–223). It searches in depth, with the nodes it has
entered in the variable `seen`, which the recursive calls share; the variable
ends every name with a blank, so that the text test on it is membership.

- `pathLoop` is the loop over the lines of a file, with the recursive call as a
  parameter, and `pathToAux` the function with a bound on the depth of its
  recursion. `pathTo` is the call with `seen` empty.
- `Searched` says what a search from some seeds returns: it has found the node on
  a path, or it has entered everything that the seeds lead to without meeting it.
  It is the same for a call and for the loop over the lines of a file
  (`searched_pathLoop`, `searched_pathToAux`).
- `pathTo_iff`: **`path_to` finds the node exactly when there is a path to it**.

The induction is on the bound, which counts the files that have not been entered:
`seen` only grows, so a nested search may assume more of it, and a call enters
one more file.
-/

namespace Jhalfs

/-- The loop over the lines of a file (func_dependencies:213–217). It ends at the
first dependency from which `search` finds the node. -/
def pathLoop (search : List Id → Id → Option (Bool × List Id)) (prio : Nat) :
    List Entry → List Id → Option (Bool × List Id)
  | [], seen => some (false, seen)
  | e :: es, seen =>
    if prio < e.prio.val then
      pathLoop search prio es seen
    else if e.id ∈ seen then
      pathLoop search prio es seen
    else
      match search seen e.id with
      | none => none
      | some (true, seen') => some (true, seen')
      | some (false, seen') => pathLoop search prio es seen'

/-- `path_to` with a bound on the depth of its recursion; `none` when the bound is
too small. -/
def pathToAux (F : Files) (seek : Id) (prio : Nat) : Nat → List Id → Id →
    Option (Bool × List Id)
  | 0, _, _ => none
  | fuel + 1, seen, start =>
    if start = seek then
      some (true, seen)
    else
      pathLoop (pathToAux F seek prio fuel) prio (F.lines start) (seen ++ [start])

/-- `seen=" "; path_to <start>.dep <seek> <prio>`. Only a node with a file has
lines to read, so the files bound the depth of the calls (`pathTo_iff`). -/
def pathTo (F : Files) (start seek : Id) (prio : Nat) : Bool :=
  match pathToAux F seek prio (F.names.length + 1) [] start with
  | some (found, _) => found
  | none => false

/-! ## The search -/

section Search

variable {F : Files} {seek : Id} {prio : Nat}

/-- The number of files not yet entered. -/
def unseen (F : Files) (seen : List Id) : Nat :=
  (F.names.filter fun n => decide (n ∉ seen)).length

theorem unseen_le_of_subset {seen seen' : List Id} (h : ∀ n ∈ seen, n ∈ seen') :
    unseen F seen' ≤ unseen F seen := by
  refine (List.monotone_filter_right F.names fun n hn => ?_).length_le
  rw [decide_eq_true_iff] at *
  exact fun hmem => hn (h n hmem)

theorem unseen_concat_lt {seen : List Id} {n : Id} (hn : n ∈ F.names) (hnot : n ∉ seen) :
    unseen F (seen ++ [n]) < unseen F seen := by
  have hle : unseen F (seen ++ [n]) ≤
      ((F.names.filter fun m => decide (m ∉ seen)).filter fun m => m != n).length := by
    rw [List.filter_filter]
    refine (List.monotone_filter_right F.names fun m hm => ?_).length_le
    rw [decide_eq_true_iff, List.mem_append, List.mem_singleton, not_or] at hm
    rw [Bool.and_eq_true, bne_iff_ne, decide_eq_true_iff]
    exact ⟨hm.2, hm.1⟩
  refine hle.trans_lt (List.length_filter_lt_length_iff_exists.mpr ⟨n, ?_, by simp⟩)
  exact List.mem_filter.mpr ⟨hn, decide_eq_true hnot⟩

/-- What a search from `seeds` returns: it has found the node on a path, or it has
entered everything the seeds lead to without meeting it. In both cases it ends,
and `seen` has only grown. -/
def Searched (F : Files) (seek : Id) (prio : Nat) (seeds : Set Id) (seen : List Id)
    (r : Option (Bool × List Id)) : Prop :=
  (∃ seen', r = some (true, seen') ∧ ∃ s ∈ seeds, Path F.lines prio s seek) ∨
  (∃ seen', r = some (false, seen') ∧
    Search.Marks (Follows F.lines prio) seeds {n | n ∈ seen} {n | n ∈ seen'} ∧
    ∀ n ∈ seen', n ∉ seen → n ≠ seek)

/-- The loop, when the nested search does what a search does. `seen` only grows,
so a nested search may assume more of it. -/
theorem searched_pathLoop {search : List Id → Id → Option (Bool × List Id)} {fuel : Nat}
    (hsearch : ∀ seen start, start ∉ seen → unseen F seen < fuel →
      Searched F seek prio {start} seen (search seen start))
    (es : List Entry) {seen : List Id} (hfuel : unseen F seen < fuel) :
    Searched F seek prio (followed prio es) seen (pathLoop search prio es seen) := by
  induction es generalizing seen with
  | nil =>
    refine Or.inr ⟨seen, rfl, .refl ?_, fun n hn hnot => absurd hn hnot⟩
    rw [followed_nil]
    exact Set.empty_subset _
  | cons e es ih =>
    -- a line that is not followed adds nothing that is not marked yet
    have hskip : followed prio [e] ⊆ {n | n ∈ seen} →
        Searched F seek prio (followed prio (e :: es)) seen (pathLoop search prio es seen) := by
      intro hsub
      rw [followed_cons]
      rcases ih hfuel with ⟨seen', heq, s, hs, hpath⟩ | ⟨seen', heq, hmarks, hnew⟩
      · exact Or.inl ⟨seen', heq, s, Or.inr hs, hpath⟩
      · exact Or.inr ⟨seen', heq, (Search.Marks.refl hsub).trans hmarks, hnew⟩
    rw [pathLoop]
    by_cases hout : prio < e.prio.val
    · rw [if_pos hout]
      refine hskip ?_
      rintro n ⟨d, hd, hp, -⟩
      rw [List.mem_singleton.mp hd] at hp
      exact absurd hp (Nat.not_le.mpr hout)
    · rw [if_neg hout]
      by_cases hmem : e.id ∈ seen
      · rw [if_pos hmem]
        refine hskip ?_
        rintro n ⟨d, hd, -, rfl⟩
        rw [List.mem_singleton.mp hd]
        exact hmem
      · rw [if_neg hmem]
        have hone : followed prio [e] = {e.id} := followed_singleton (Nat.not_lt.mp hout)
        rcases hsearch seen e.id hmem hfuel with
          ⟨seen', heq, s, hs, hpath⟩ | ⟨seen', heq, hmarks, hnew⟩
        · rw [heq, followed_cons, hone]
          exact Or.inl ⟨seen', rfl, s, Or.inl hs, hpath⟩
        -- nothing found here: the other lines start from what this search has seen
        · have hle := unseen_le_of_subset (F := F) hmarks.kept
          rw [heq, followed_cons, hone]
          rcases ih (hle.trans_lt hfuel) with
            ⟨seen'', heq', s, hs, hpath⟩ | ⟨seen'', heq', hmarks', hnew'⟩
          · exact Or.inl ⟨seen'', heq', s, Or.inr hs, hpath⟩
          · refine Or.inr ⟨seen'', heq', hmarks.trans hmarks', fun n hn hnot => ?_⟩
            by_cases hmid : n ∈ seen'
            · exact hnew n hmid hnot
            · exact hnew' n hn hmid

/-- A call. The induction is on the bound, which counts the files not entered. -/
theorem searched_pathToAux (seek : Id) (prio : Nat) {fuel : Nat} {seen : List Id} {start : Id}
    (hstart : start ∉ seen)
    (hfuel : unseen F seen < fuel) :
    Searched F seek prio {start} seen (pathToAux F seek prio fuel seen start) := by
  induction fuel generalizing seen start with
  | zero => exact absurd hfuel (Nat.not_lt_zero _)
  | succ fuel ih =>
    rw [pathToAux]
    by_cases hfound : start = seek
    · rw [if_pos hfound]
      exact Or.inl ⟨seen, rfl, start, rfl, hfound ▸ Relation.ReflTransGen.refl⟩
    · rw [if_neg hfound]
      have hset : {n | n ∈ seen ++ [start]} = insert start {n | n ∈ seen} := by
        ext n
        simp [or_comm]
      have hloop : Searched F seek prio (followed prio (F.lines start)) (seen ++ [start])
          (pathLoop (pathToAux F seek prio fuel) prio (F.lines start) (seen ++ [start])) := by
        by_cases hfile : start ∈ F.names
        · refine searched_pathLoop (fun _ _ => ih) _ ?_
          exact (unseen_concat_lt hfile hstart).trans_le (Nat.lt_succ_iff.mp hfuel)
        · -- without a file there is nothing to read
          rw [F.absent start hfile]
          refine Or.inr ⟨_, rfl, .refl ?_, fun n hn hnot => absurd hn hnot⟩
          rw [followed_nil]
          exact Set.empty_subset _
      rcases hloop with ⟨seen', heq, s, hs, hpath⟩ | ⟨seen', heq, hmarks, hnew⟩
      · exact Or.inl ⟨seen', heq, start, rfl, Relation.ReflTransGen.head hs hpath⟩
      · rw [hset] at hmarks
        refine Or.inr ⟨seen', heq, hmarks.visit, fun n hn hnot => ?_⟩
        by_cases hne : n = start
        · exact hne ▸ hfound
        · exact hnew n hn fun hmem => (List.mem_append.mp hmem).elim hnot fun h =>
            hne (List.mem_singleton.mp h)

end Search

/-- With a bound above the number of files a call ends, and finds the node exactly when there
is a path to it. -/
theorem pathToAux_iff {F : Files} {seek : Id} {prio : Nat} {fuel : Nat}
    (hfuel : F.names.length < fuel) (start : Id) :
    ∃ found seen, pathToAux F seek prio fuel [] start = some (found, seen) ∧
      (found = true ↔ Path F.lines prio start seek) := by
  have hunseen : unseen F [] < fuel := (List.length_filter_le _ _).trans_lt hfuel
  rcases searched_pathToAux seek prio (List.not_mem_nil : start ∉ []) hunseen
    with ⟨seen', heq, s, hs, hpath⟩ | ⟨seen', heq, hmarks, hnew⟩
  · exact ⟨true, seen', heq, iff_of_true rfl (hs ▸ hpath)⟩
  · refine ⟨false, seen', heq, iff_of_false Bool.false_ne_true fun hpath => ?_⟩
    have hseek := (hmarks.mem_iff (fun k hk => absurd hk List.not_mem_nil)
      List.not_mem_nil).mpr ⟨start, rfl, hpath⟩
    exact hnew seek hseek List.not_mem_nil rfl

/-- `path_to` finds the node exactly when there is a path to it. -/
theorem pathTo_iff {F : Files} {start seek : Id} {prio : Nat} :
    pathTo F start seek prio = true ↔ Path F.lines prio start seek := by
  obtain ⟨found, seen, heq, hfound⟩ := pathToAux_iff (Nat.lt_succ_self _) start
  rw [pathTo, heq]
  exact hfound

end Jhalfs
